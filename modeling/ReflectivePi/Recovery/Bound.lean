import ReflectivePi.Recovery.AgentSession
import ReflectivePi.Session.Growth

/-!
# Recovery — Bound

How often a prompt can fail in a row. A retry spends an attempt, and recovery
from a full context or a cut response spends the one try that no failure gives
back; so a second round of retries is the last.

`Bounded` relates the failures in a row to the two counters before a request,
`Pending` after one more failure has been counted.
-/

namespace ReflectivePi.Recovery

open List
open Agent (StopReason)
open Session

/-- An error, or a length stop without tool calls. -/
def Completion.failed (c : Completion) : Bool :=
  decide (c.stopReason = .error) || (decide (c.stopReason = .length) && !c.hasToolCalls)

/-- The failures at the end of a list of calls. -/
def failuresInARow (calls : List Completion) : Nat :=
  (calls.reverse.takeWhile Completion.failed).length

/-- Failing calls with nothing between them are at most `bound`. -/
def FailuresWithin (bound : Nat) (calls : List Completion) : Prop :=
  ∀ pre run post, calls = pre ++ run ++ post → (∀ c ∈ run, c.failed = true) → run.length ≤ bound

theorem failuresInARow_concat (calls : List Completion) (c : Completion) :
    failuresInARow (calls ++ [c]) = if c.failed then failuresInARow calls + 1 else 0 := by
  unfold failuresInARow
  cases h : c.failed <;> simp [h]

theorem length_le_failuresInARow {pre run : List Completion} (h : ∀ c ∈ run, c.failed = true) :
    run.length ≤ failuresInARow (pre ++ run) := by
  unfold failuresInARow
  have hall : ∀ c ∈ run.reverse, c.failed = true :=
    fun c hc => h c (List.mem_reverse.mp hc)
  rw [reverse_append, takeWhile_append_of_pos hall]
  simp

theorem FailuresWithin.nil (bound : Nat) : FailuresWithin bound [] := by
  intro pre run post h _
  have hrun : run = [] := by
    cases run with
    | nil => rfl
    | cons c run => simp at h
  simp [hrun]

theorem FailuresWithin.concat {bound : Nat} {calls : List Completion}
    {c : Completion} (h : FailuresWithin bound calls) (hc : failuresInARow (calls ++ [c]) ≤ bound) :
    FailuresWithin bound (calls ++ [c]) := by
  intro pre run post hsplit hrun
  induction post using List.reverseRecOn with
  | nil =>
    rw [append_nil] at hsplit
    have hlen : run.length ≤ failuresInARow (pre ++ run) := length_le_failuresInARow hrun
    rw [← hsplit] at hlen
    omega
  | append_singleton post d _ =>
    rw [← append_assoc] at hsplit
    exact h pre run post (append_inj_left' hsplit rfl) hrun

/-- A check that asks for no other try. -/
def Check.refuses : Check → Prop
  | .returns result => result = false
  | .compacts _ willRetry => willRetry = false
  | .throws => True

/-! ## The two counters -/

structure Counters where
  retryAttempt : Nat
  overflowRecoveryAttempted : Bool
  calls : List Completion

namespace State

def counters (s : State) : Counters :=
  ⟨s.retryAttempt, s.overflowRecoveryAttempted, s.calls⟩

variable {env : Environment} {s s' : State}

@[simp] theorem counters_proceed (s : State) (continues : Bool) :
    (s.proceed continues).counters = s.counters := by
  unfold proceed
  split
  · rfl
  · split <;> rfl

@[simp] theorem calls_proceed (s : State) (continues : Bool) :
    (s.proceed continues).calls = s.calls :=
  congrArg Counters.calls (counters_proceed s continues)

theorem counters_omitRecoveryAttempt (env : Environment) (s : State) (ids : List EntryId) :
    (s.omitRecoveryAttempt env ids).1.counters = s.counters := by
  induction ids generalizing s with
  | nil => rfl
  | cons id ids ih =>
    unfold omitRecoveryAttempt
    split
    · rfl
    · rw [ih]
      rfl

theorem counters_finishCompaction (env : Environment) (s : State)
    (reason : Reason) (willRetry : Bool) (outcome : CompactionOutcome) :
    (s.finishCompaction env reason willRetry outcome).counters = s.counters := by
  cases outcome <;> rfl

theorem runAutoCompaction_spec (s : State) (r : CheckReadings)
    (reason : Reason) (willRetry : Bool) :
    (s.runAutoCompaction r reason willRetry).1.counters = s.counters ∧
    ((s.runAutoCompaction r reason willRetry).2 = .returns false ∨
      (s.runAutoCompaction r reason willRetry).2 = .compacts reason willRetry) := by
  unfold runAutoCompaction
  split
  · exact ⟨rfl, .inl rfl⟩
  · exact ⟨rfl, .inr rfl⟩

variable {patterns : ErrorPatterns} {a : Attempt} {skipAbortedCheck : Bool}
  {toolResults : List EntryId} {r : CheckReadings}

theorem contextOverflow_cases {facts : CheckFacts} {c : Completion}
    {sameModel : Bool} (h : contextOverflow patterns facts c r sameModel = true) :
    isOverflowError patterns c = true ∨ c.stopReason = .stop ∨ c.stopReason = .length := by
  simp only [contextOverflow, Bool.and_eq_true, Bool.or_eq_true] at h
  obtain ⟨-, ⟨⟨-, hexplicit⟩, -⟩ | ⟨⟨-, hinferred⟩, -⟩⟩ := h
  · exact isContextOverflow_cases hexplicit
  · exact isContextOverflow_cases hinferred

theorem runAutoCompaction_refuses (s : State) (r : CheckReadings)
    (reason : Reason) : (s.runAutoCompaction r reason false).2.refuses := by
  unfold runAutoCompaction
  split <;> rfl

/-- **What a check does to the counters**: nothing, without another try; or it
spends the one recovery, on an error with an overflow or on a length stop. -/
theorem checkCompaction_cases {result : State × Check}
    (h : s.checkCompaction patterns env a skipAbortedCheck toolResults r = result) :
    (result.1.counters = s.counters ∧ result.2.refuses) ∨
    (result.1.counters = { s.counters with overflowRecoveryAttempted := true } ∧
      s.overflowRecoveryAttempted = false ∧ result.2 ≠ .returns true ∧
      (isOverflowError patterns a.completion = true ∨ a.completion.stopReason = .length)) := by
  subst h
  unfold checkCompaction
  dsimp only
  split
  · exact .inl ⟨rfl, rfl⟩
  split
  · exact .inl ⟨rfl, rfl⟩
  split
  · exact .inl ⟨rfl, rfl⟩
  split
  case isTrue hrecover =>
    split
    · exact .inl ⟨(runAutoCompaction_spec s r _ _).1, runAutoCompaction_refuses s r _⟩
    case isFalse hstop =>
      split
      · exact .inl ⟨rfl, rfl⟩
      case isFalse hfirst =>
        have hclass : isOverflowError patterns a.completion = true ∨
            a.completion.stopReason = .length := by
          rcases Bool.or_eq_true_iff.mp hrecover with hoverflow | hlength
          · rcases contextOverflow_cases hoverflow with herror | hs | hl
            · exact .inl herror
            · exact absurd hs hstop
            · exact .inr hl
          · simp only [isRecoverableLength, Bool.and_eq_true, decide_eq_true_eq] at hlength
            exact .inr hlength.2.1.1
        have hcounters := counters_omitRecoveryAttempt env
          { s with overflowRecoveryAttempted := true } (a.entryId :: toolResults)
        generalize omitRecoveryAttempt env { s with overflowRecoveryAttempted := true }
          (a.entryId :: toolResults) = omission at hcounters ⊢
        obtain ⟨s₁, returned⟩ := omission
        refine .inr ⟨?_, by simpa using hfirst, ?_, hclass⟩
        · cases returned with
          | true => exact (runAutoCompaction_spec s₁ r _ _).1.trans hcounters
          | false => exact hcounters
        · cases returned with
          | true =>
            rcases (runAutoCompaction_spec s₁ r .overflow true).2 with h | h <;>
              simp [h]
          | false => simp
  case isFalse =>
    split
    · exact .inl ⟨(runAutoCompaction_spec s r _ _).1, runAutoCompaction_refuses s r _⟩
    · exact .inl ⟨rfl, rfl⟩

@[simp] theorem counters_finishCancelledRetry (s : State) :
    s.finishCancelledRetry.counters = { s.counters with retryAttempt := 0 } := by
  unfold finishCancelledRetry
  split
  case isTrue h => simp [counters, h]
  case isFalse => rfl

@[simp] theorem calls_finishCancelledRetry (s : State) : s.finishCancelledRetry.calls = s.calls :=
  congrArg Counters.calls (counters_finishCancelledRetry s)

theorem counters_of_isSystem {message : AgentMessage} (s : State) (h : message.isSystem = true) :
    (s.handleMessage env message).counters = s.counters := by
  cases message with
  | system m => rfl
  | _ => simp [AgentMessage.isSystem] at h

theorem counters_handleResponse (s : State) (c : Completion) :
    (s.handleResponse env c).counters =
      { retryAttempt := if c.stopReason = .error then s.retryAttempt else 0
        overflowRecoveryAttempted := if c.stopReason ≠ .error ∧ c.stopReason ≠ .length then false
          else s.overflowRecoveryAttempted
        calls := s.calls } := by
  unfold handleResponse counters
  by_cases herror : c.stopReason = .error
  · simp [herror, append]
  · by_cases hlength : c.stopReason = .length <;>
      by_cases hr : 0 < s.retryAttempt <;>
      simp [herror, hlength, hr, append, emit] <;> omega

@[simp] theorem lastAssistantMessage_handleResponse (s : State) (c : Completion) :
    (s.handleResponse env c).lastAssistantMessage = some ⟨c, s.nextId env⟩ := by
  unfold handleResponse
  dsimp only
  split <;> split <;> rfl

end State

/-! ## The invariant -/

/-- The failures in a row before a request (`extra = 0`), or with one more
counted: at most one for each attempt, and one round more after a recovery. -/
structure Bounded (maxRetries extra : Nat) (c : Counters) : Prop where
  fresh : c.overflowRecoveryAttempted = false → failuresInARow c.calls ≤ c.retryAttempt + extra ∧
      failuresInARow c.calls ≤ maxRetries + extra
  recovered : c.overflowRecoveryAttempted = true →
    failuresInARow c.calls ≤ maxRetries + 1 + c.retryAttempt + extra ∧
      failuresInARow c.calls ≤ 2 * maxRetries + 1 + extra

/-- What a response leaves to the decision after its run. -/
structure Ended (maxRetries : Nat) (counters : Counters) (c : Completion) :
    Prop where
  error : c.stopReason = .error → Bounded maxRetries 1 counters
  /-- A length stop has given the attempts back. -/
  length : c.stopReason = .length → counters.overflowRecoveryAttempted = false →
      failuresInARow counters.calls ≤ maxRetries + 1

variable {maxRetries : Nat} {c : Counters}

theorem Bounded.of_zero {extra : Nat}
    (h : failuresInARow c.calls = 0) : Bounded maxRetries extra c := by
  constructor <;> intro _ <;> omega

theorem Bounded.more
    (h : Bounded maxRetries 0 c) : Bounded maxRetries 1 c := by
  constructor
  · intro hfresh
    have := h.fresh hfresh
    omega
  · intro hrecovered
    have := h.recovered hrecovered
    omega

theorem Bounded.retry (h : Bounded maxRetries 1 c) (hlimit : c.retryAttempt + 1 ≤ maxRetries) :
    Bounded maxRetries 0 { c with retryAttempt := c.retryAttempt + 1 } := by
  constructor
  · intro hfresh
    have := h.fresh hfresh
    dsimp only
    omega
  · intro hrecovered
    have := h.recovered hrecovered
    dsimp only
    omega

theorem Bounded.recover {attempts : Nat} {calls : List Completion}
    (h : failuresInARow calls ≤ maxRetries + 1) : Bounded maxRetries 0 ⟨attempts, true, calls⟩ := by
  constructor
  · nofun
  · intro _
    dsimp only
    omega

theorem Bounded.total (h : Bounded maxRetries 0 c) :
    failuresInARow c.calls + 1 ≤ 2 * (maxRetries + 1) := by
  cases ho : c.overflowRecoveryAttempted with
  | false => have := h.fresh ho; omega
  | true => have := h.recovered ho; omega

/-- What holds at a point of the loop. -/
def AtPhase (patterns : ErrorPatterns) (maxRetries : Nat) (s : State) : Prop :=
  match s.phase with
  | .requesting turned | .responding turned =>
    Bounded maxRetries 0 s.counters ∧ (turned = true → failuresInARow s.calls = 0)
  | .responded c =>
    (∃ id, s.lastAssistantMessage = some ⟨c, id⟩) ∧ Ended maxRetries s.counters c ∧
      (c.failed = false → failuresInARow s.calls = 0)
  | .deciding =>
    ∀ a, s.lastAssistantMessage = some a → Ended maxRetries s.counters a.completion
  | .omitting a _ | .sleeping a _ =>
    Bounded maxRetries 0 s.counters ∧ a.completion.stopReason = .error ∧
      isOverflowError patterns a.completion = false
  | .compacting _ willRetry preflight =>
    preflight = false → willRetry = true → Bounded maxRetries 0 s.counters
  | .continuing => Bounded maxRetries 0 s.counters
  | .idle | .beforeSettle | .closing => True

structure BoundInv (patterns : ErrorPatterns) (maxRetries : Nat) (s : State) :
    Prop where
  within : FailuresWithin (2 * (maxRetries + 1)) s.calls
  phase : AtPhase patterns maxRetries s

/-! ## Steps -/

/-- No message is queued, nothing asks to continue, the limit is not raised,
and no hook fails a run whose response was complete but cut short. -/
def quiet (maxRetries : Nat) (s : State) (label : Label) : Bool :=
  match label.act with
  | .deliver source _ => decide (source ≠ .queue)
  | .fail _ =>
    match s.phase with
    | .responded c => !c.failed || decide (c.stopReason = .error)
    | _ => true
  | .endTurn _ decision drained => decide (decision ≠ .continues) && !drained
  | .post settings _ hasQueued =>
    decide (settings.maxRetries ≤ maxRetries) && !hasQueued
  | .wake _ _ hasQueued | .compacted _ hasQueued => !hasQueued
  | .beforeSettle continues => !continues
  | _ => true

namespace State

variable {patterns : ErrorPatterns} {maxRetries : Nat} {env : Environment}
  {s : State} {a : Attempt} {toolResults : List EntryId} {r : CheckReadings}

theorem atPhase_proceed {continues : Bool}
    (h : continues = true → Bounded maxRetries 0 s.counters) :
    AtPhase patterns maxRetries (s.proceed continues) := by
  unfold proceed
  split
  · trivial
  · split
    case isTrue hc => exact h hc
    case isFalse => trivial

theorem prepareRetry_eq_some {settings : RetrySettings} {s' : State}
    (h : s.prepareRetry settings a toolResults = some s') :
    s.retryAttempt + 1 ≤ settings.maxRetries ∧
    s' = { s with
      retryAttempt := s.retryAttempt + 1, phase := .omitting a toolResults }.emit
      (.autoRetryStart (s.retryAttempt + 1) settings.maxRetries
        (retryDelayMs settings (s.retryAttempt + 1))
        (a.completion.errorText.getD "Unknown error")) := by
  unfold prepareRetry at h
  split at h
  · cases h
  · split at h
    · cases h
    case isFalse hattempts =>
      cases h
      exact ⟨Nat.le_of_not_lt hattempts, rfl⟩

section

variable (hwithin : FailuresWithin (2 * (maxRetries + 1)) s.calls)

include hwithin

theorem boundInv_afterRetry
    (hend : isOverflowError patterns a.completion = true ∨ a.completion.stopReason = .length →
      s.overflowRecoveryAttempted = false → failuresInARow s.calls ≤ maxRetries + 1) :
    BoundInv patterns maxRetries
      (s.afterRetry patterns env a toolResults r false) := by
  unfold afterRetry
  dsimp only
  -- the end of a streak gives the attempts back, and nothing else
  generalize hs₁ : (if a.completion.stopReason = .error ∧ 0 < s.retryAttempt then
      { s.emit (.autoRetryEnd false s.retryAttempt a.completion.errorMessage) with
        retryAttempt := 0 }
    else s) = s₁
  have hcalls : s₁.calls = s.calls := by
    rw [← hs₁]
    split <;> rfl
  have hattempted :
      s₁.overflowRecoveryAttempted = s.overflowRecoveryAttempted := by
    rw [← hs₁]
    split <;> rfl
  generalize hcheck : s₁.checkCompaction patterns env a true toolResults r = result
  obtain ⟨s₂, check⟩ := result
  have hcases := checkCompaction_cases hcheck
  have hcalls₂ : s₂.calls = s.calls := by
    rcases hcases with ⟨hcounters, -⟩ | ⟨hcounters, -⟩ <;>
      exact (congrArg Counters.calls hcounters).trans hcalls
  have hwithin₂ : FailuresWithin (2 * (maxRetries + 1)) s₂.calls := hcalls₂ ▸ hwithin
  cases check with
  | throws => exact ⟨hwithin₂, trivial⟩
  | returns answer =>
    have hno : answer = false := by
      rcases hcases with ⟨-, hrefuses⟩ | ⟨-, -, hne, -⟩
      · exact hrefuses
      · simpa using hne
    subst hno
    refine ⟨?_, atPhase_proceed (by simp)⟩
    show FailuresWithin _ (s₂.proceed (false || false)).calls
    rwa [calls_proceed]
  | compacts reason willRetry =>
    refine ⟨hwithin₂, fun _ hretry => ?_⟩
    rcases hcases with ⟨-, hrefuses⟩ | ⟨hcounters, hfirst, -, hclass⟩
    · exact absurd (hrefuses.symm.trans hretry) (by simp)
    · have hle := hend hclass (hattempted.symm.trans hfirst)
      show Bounded maxRetries 0 s₂.counters
      rw [hcounters]
      refine Bounded.recover ?_
      show failuresInARow s₁.calls ≤ maxRetries + 1
      rwa [hcalls]

theorem boundInv_handlePostAgentRun {settings : RetrySettings}
    (hlast : ∀ a, s.lastAssistantMessage = some a →
      Ended maxRetries s.counters a.completion) (hlimit : settings.maxRetries ≤ maxRetries) :
    BoundInv patterns maxRetries
      (s.handlePostAgentRun patterns env settings r false) := by
  unfold handlePostAgentRun
  split
  · exact ⟨hwithin, trivial⟩
  cases hsome : s.lastAssistantMessage with
  | none =>
    refine ⟨?_, atPhase_proceed (by simp)⟩
    rwa [calls_proceed]
  | some a =>
    have hended := hlast a hsome
    have hrest : BoundInv patterns maxRetries (afterRetry patterns env { s with
          lastAssistantMessage := none, lastAssistantToolResults := [] } a
          s.lastAssistantToolResults r false) := by
      refine boundInv_afterRetry hwithin fun hclass hfresh => ?_
      rcases hclass with hoverflow | hlength
      · exact ((hended.error (stopReason_of_isOverflowError hoverflow)).fresh hfresh).2
      · exact hended.length hlength hfresh
    dsimp only
    split
    case isFalse => exact hrest
    case isTrue hretryable =>
      have herror := stopReason_of_isRetryableError hretryable
      have hoverflow := isContextOverflow_of_isRetryableError hretryable 0
      rw [isContextOverflow_of_error herror] at hoverflow
      cases hprepare : prepareRetry settings { s with
          lastAssistantMessage := none, lastAssistantToolResults := [] } a
          s.lastAssistantToolResults with
      | none => exact hrest
      | some s₁ =>
        obtain ⟨hattempts, rfl⟩ := prepareRetry_eq_some hprepare
        refine ⟨hwithin, ?_, herror, hoverflow⟩
        exact (hended.error herror).retry (Nat.le_trans hattempts hlimit)

theorem boundInv_omitAttempt
    (h : Bounded maxRetries 0 s.counters ∧ a.completion.stopReason = .error ∧
      isOverflowError patterns a.completion = false) :
    BoundInv patterns maxRetries (s.omitAttempt env a toolResults) := by
  have hcounters := counters_omitRecoveryAttempt env s [a.entryId]
  unfold omitAttempt
  generalize s.omitRecoveryAttempt env [a.entryId] = omission at hcounters ⊢
  obtain ⟨s₁, returned⟩ := omission
  have hcalls : s₁.calls = s.calls := congrArg Counters.calls hcounters
  cases returned with
  | true =>
    refine ⟨?_, ?_, h.2⟩
    · show FailuresWithin _ s₁.calls
      rwa [hcalls]
    · show Bounded maxRetries 0 s₁.counters
      rw [hcounters]
      exact h.1
  | false =>
    refine ⟨?_, trivial⟩
    show FailuresWithin _ s₁.calls
    rwa [hcalls]

theorem boundInv_wake {elapsed : Bool}
    (h : Bounded maxRetries 0 s.counters ∧ a.completion.stopReason = .error ∧
      isOverflowError patterns a.completion = false) :
    BoundInv patterns maxRetries
      (s.wake patterns env a toolResults elapsed r false) := by
  unfold wake
  split
  · split
    · refine ⟨?_, trivial⟩
      show FailuresWithin _ s.finishCancelledRetry.calls
      rwa [calls_finishCancelledRetry]
    · exact ⟨hwithin, h.1⟩
  · dsimp only
    split
    · refine ⟨?_, trivial⟩
      show FailuresWithin _ s.finishCancelledRetry.calls
      rwa [calls_finishCancelledRetry]
    · refine boundInv_afterRetry (by rwa [calls_finishCancelledRetry]) fun hclass _ => ?_
      -- a retryable error is neither an overflow nor a length stop
      rcases hclass with hoverflow | hlength
      · simp [h.2.2] at hoverflow
      · simp [h.2.1] at hlength

theorem boundInv_compacted {reason : Reason} {willRetry preflight : Bool}
    {outcome : CompactionOutcome}
    (h : preflight = false → willRetry = true → Bounded maxRetries 0 s.counters) :
    BoundInv patterns maxRetries
      (s.compacted env reason willRetry preflight outcome false) := by
  have hcounters := counters_finishCompaction env s reason willRetry outcome
  have hcalls : (s.finishCompaction env reason willRetry outcome).calls
      = s.calls := congrArg Counters.calls hcounters
  unfold compacted
  dsimp only
  split
  · refine ⟨?_, trivial⟩
    show FailuresWithin _ (s.finishCompaction env reason willRetry outcome).calls
    rwa [hcalls]
  case isFalse hpost =>
    refine ⟨?_, atPhase_proceed fun hcontinues => ?_⟩
    · rwa [calls_proceed, hcalls]
    · rw [hcounters]
      simp only [Bool.or_false, Bool.and_eq_true] at hcontinues
      exact h (by simpa using hpost) hcontinues.2

end

variable {c : Completion}

theorem ended_handleResponse {calls : List Completion}
    (h : Bounded maxRetries 0 s.counters) (hcalls : calls = s.calls ++ [c]) :
    Ended maxRetries { (s.handleResponse env c).counters with calls } c := by
  have hle : failuresInARow calls ≤ failuresInARow s.calls + 1 := by
    rw [hcalls, failuresInARow_concat]
    split <;> omega
  rw [counters_handleResponse]
  constructor
  · intro herror
    constructor
    · intro hfresh
      have := h.fresh (by simpa [herror, counters] using hfresh)
      simp only [herror, counters, if_true] at this ⊢
      omega
    · intro hrecovered
      have := h.recovered (by simpa [herror, counters] using hrecovered)
      simp only [herror, counters, if_true] at this ⊢
      omega
  · intro hlength hfresh
    have := h.fresh (by simpa [hlength, counters] using hfresh)
    simp only [counters] at this ⊢
    omega

theorem ended_failure (h : Bounded maxRetries 1 s.counters)
    (hc : c.stopReason = .error ∨ c.stopReason = .aborted) :
    Ended maxRetries (s.handleResponse env c).counters c := by
  rw [counters_handleResponse]
  constructor
  · intro herror
    constructor
    · intro hfresh
      simpa [herror, counters] using h.fresh (by simpa [herror, counters] using hfresh)
    · intro hrecovered
      simpa [herror, counters] using h.recovered (by simpa [herror, counters] using hrecovered)
  · intro hlength
    rcases hc with hc | hc <;> simp [hlength] at hc

theorem boundInv_endTurn {terminate : Bool} {decision : Decision}
    (hwithin : FailuresWithin (2 * (maxRetries + 1)) s.calls)
    (hlast : ∃ id, s.lastAssistantMessage = some ⟨c, id⟩) (hended : Ended maxRetries s.counters c)
    (hother : c.failed = false → failuresInARow s.calls = 0) (hdecision : decision ≠ .continues) :
    BoundInv patterns maxRetries (s.endTurn c terminate decision false) := by
  obtain ⟨id, hlast⟩ := hlast
  have hdeciding : ∀ a, s.lastAssistantMessage = some a →
      Ended maxRetries s.counters a.completion := by
    intro a ha
    rw [hlast] at ha
    cases ha
    exact hended
  unfold endTurn
  split
  · exact ⟨hwithin, hdeciding⟩
  case isFalse hreason =>
    dsimp only
    split
    · exact ⟨hwithin, hdeciding⟩
    · split
      case isTrue hcontinues =>
        have htools : c.hasToolCalls = true := by
          simp only [hdecision, decide_false, Bool.or_false, Bool.and_eq_true] at hcontinues
          exact hcontinues.1
        have hzero : failuresInARow s.calls = 0 := by
          refine hother ?_
          simp only [not_or] at hreason
          simp [Completion.failed, hreason.1, htools]
        exact ⟨hwithin, Bounded.of_zero hzero, fun _ => hzero⟩
      case isFalse => exact ⟨hwithin, hdeciding⟩

end State

section

variable {patterns : ErrorPatterns} {maxRetries : Nat} {s s' : State}
  {migrate : List FileEntry → List FileEntry × Bool} {label : Label}

theorem calls_foldl_handleMessage (env : Environment) (s : State) (messages : List AgentMessage) :
    (messages.foldl (State.handleMessage env) s).calls = s.calls ∧
      (messages.foldl (State.handleMessage env) s).phase = s.phase := by
  induction messages generalizing s with
  | nil => exact ⟨rfl, rfl⟩
  | cons message messages ih =>
    have hone : (s.handleMessage env message).calls = s.calls ∧
        (s.handleMessage env message).phase = s.phase := by
      cases message <;> exact ⟨rfl, rfl⟩
    obtain ⟨hcalls, hphase⟩ := ih (s.handleMessage env message)
    exact ⟨hcalls.trans hone.1, hphase.trans hone.2⟩

theorem atPhase_congr (hphase : s'.phase = s.phase) (hcounters : s'.counters = s.counters)
    (hlast : s'.lastAssistantMessage = s.lastAssistantMessage)
    (h : AtPhase patterns maxRetries s) : AtPhase patterns maxRetries s' := by
  have hcalls : s'.calls = s.calls := congrArg Counters.calls hcounters
  unfold AtPhase at h ⊢
  rw [hphase, hcounters, hlast, hcalls]
  exact h

theorem boundInv_handleRunFailure {env : Environment} {c : Completion}
    (hwithin : FailuresWithin (2 * (maxRetries + 1)) s.calls) (h : Bounded maxRetries 1 s.counters)
    (hc : c.stopReason = .error ∨ c.stopReason = .aborted) :
    BoundInv patterns maxRetries (s.handleRunFailure env c) := by
  have hcalls : (s.handleResponse env c).calls = s.calls :=
    congrArg Counters.calls (State.counters_handleResponse s c)
  refine ⟨?_, ?_⟩
  · show FailuresWithin _ (s.handleResponse env c).calls
    rwa [hcalls]
  · intro a ha
    cases (State.lastAssistantMessage_handleResponse s c).symm.trans ha
    exact State.ended_failure h hc

/-- **Every quiet step keeps the failures within the bound.** -/
theorem boundInv_step (h : BoundInv patterns maxRetries s)
    (hquiet : quiet maxRetries s label = true) (hstep : step patterns migrate s label = some s') :
    BoundInv patterns maxRetries s' := by
  obtain ⟨env, act⟩ := label
  obtain ⟨hwithin, hatPhase⟩ := h
  have hat := hatPhase
  unfold AtPhase at hat
  unfold quiet at hquiet
  cases act with
  | prompt messages =>
    cases hphase : s.phase <;> simp only [step, hphase, reduceCtorEq] at hstep
    case idle =>
      cases hstep
      obtain ⟨hcalls, hphase⟩ := calls_foldl_handleMessage env { s with
          agentRunAbortRequested := false, calls := [], phase := .requesting false } messages
      refine ⟨hcalls ▸ FailuresWithin.nil _, ?_⟩
      unfold AtPhase
      rw [hphase]
      refine ⟨Bounded.of_zero ?_, by simp⟩
      show failuresInARow (List.foldl (State.handleMessage env) _ messages).calls = 0
      rw [hcalls]
      rfl
  | preflight a r =>
    cases hphase : s.phase <;> simp only [step, hphase, reduceCtorEq] at hstep
    case idle =>
      generalize hcheck : s.checkCompaction patterns env a false [] r = result at hstep
      have hcalls : result.1.calls = s.calls := by
        rcases State.checkCompaction_cases hcheck with
          ⟨hcounters, -⟩ | ⟨hcounters, -⟩ <;>
          exact congrArg Counters.calls hcounters
      obtain ⟨s₁, check⟩ := result
      cases check <;> cases hstep
      · exact ⟨hcalls ▸ hwithin, trivial⟩
      · exact ⟨hcalls ▸ hwithin, by nofun⟩
      · exact ⟨hcalls ▸ hwithin, trivial⟩
  | deliver source message =>
    cases hphase : s.phase <;> simp only [step, hphase, reduceCtorEq] at hstep
    case requesting turned =>
      rw [hphase] at hat
      have hframe := calls_foldl_handleMessage env s [message]
      rw [foldl_cons, foldl_nil] at hframe
      obtain ⟨hcalls, hframe⟩ := hframe
      split at hstep
      case isFalse => cases hstep
      case isTrue hsource =>
        cases hstep
        refine ⟨hcalls ▸ hwithin, ?_⟩
        unfold AtPhase
        rw [hframe, hphase]
        cases source with
        | queue => simp at hquiet
        | prepared =>
          -- a prepared message can reset the recovery, but no failure is
          -- behind it
          have hzero := hat.2 (Bool.and_eq_true_iff.mp hsource).1
          refine ⟨Bounded.of_zero ?_, fun _ => ?_⟩
          · show failuresInARow (s.handleMessage env message).calls = 0
            rwa [hcalls]
          · rwa [hcalls]
        | declared =>
          rw [State.counters_of_isSystem s hsource, hcalls]
          exact hat
  | request =>
    cases hphase : s.phase <;> simp only [step, hphase, reduceCtorEq] at hstep
    case requesting turned =>
      cases hstep
      rw [hphase] at hat
      exact ⟨hwithin, hat⟩
  | complete c =>
    cases hphase : s.phase <;> simp only [step, hphase, reduceCtorEq] at hstep
    case responding turned =>
      cases hstep
      rw [hphase] at hat
      have htotal : failuresInARow s.calls + 1 ≤ 2 * (maxRetries + 1) := hat.1.total
      refine ⟨hwithin.concat ?_, ⟨_, State.lastAssistantMessage_handleResponse s c⟩,
        State.ended_handleResponse hat.1 rfl, fun hother => ?_⟩
      · rw [failuresInARow_concat]
        split <;> omega
      · show failuresInARow (s.calls ++ [c]) = 0
        simp [failuresInARow_concat, hother]
  | fail c =>
    cases hphase : s.phase <;> simp only [step, hphase, reduceCtorEq] at hstep
    case requesting turned =>
      rw [hphase] at hat
      split at hstep <;> cases hstep
      case isTrue hc => exact boundInv_handleRunFailure hwithin hat.1.more hc
    case responding turned =>
      rw [hphase] at hat
      split at hstep <;> cases hstep
      have htotal : failuresInARow s.calls + 1 ≤ 2 * (maxRetries + 1) := hat.1.total
      refine ⟨hwithin.concat ?_, fun a ha => ?_⟩
      · rw [failuresInARow_concat]
        split <;> omega
      · cases (State.lastAssistantMessage_handleResponse s c).symm.trans ha
        exact State.ended_handleResponse hat.1 rfl
    case responded last =>
      rw [hphase] at hat
      split at hstep <;> cases hstep
      case isTrue hc =>
        refine boundInv_handleRunFailure hwithin ?_ hc
        cases hfailed : last.failed with
        | true =>
          exact hat.2.1.error (by simpa [hphase, hfailed] using hquiet)
        | false => exact Bounded.of_zero (hat.2.2 hfailed)
  | toolResult message =>
    cases hphase : s.phase <;> simp only [step, hphase, reduceCtorEq] at hstep
    case responded c =>
      cases hstep
      exact ⟨hwithin, atPhase_congr rfl rfl rfl hatPhase⟩
  | endTurn terminate decision drained =>
    cases hphase : s.phase <;> simp only [step, hphase, reduceCtorEq] at hstep
    case responded c =>
      cases hstep
      rw [hphase] at hat
      simp only [Bool.and_eq_true, decide_eq_true_eq, Bool.not_eq_true'] at hquiet
      obtain ⟨hdecision, rfl⟩ := hquiet
      exact State.boundInv_endTurn hwithin hat.1 hat.2.1 hat.2.2 hdecision
  | post settings r hasQueued =>
    cases hphase : s.phase <;> simp only [step, hphase, reduceCtorEq] at hstep
    case deciding =>
      cases hstep
      rw [hphase] at hat
      simp only [Bool.and_eq_true, decide_eq_true_eq, Bool.not_eq_true'] at hquiet
      obtain ⟨hlimit, rfl⟩ := hquiet
      exact State.boundInv_handlePostAgentRun hwithin hat hlimit
  | omitAttempt =>
    cases hphase : s.phase <;> simp only [step, hphase, reduceCtorEq] at hstep
    case omitting a toolResults =>
      cases hstep
      rw [hphase] at hat
      exact State.boundInv_omitAttempt hwithin hat
  | wake elapsed r hasQueued =>
    cases hphase : s.phase <;> simp only [step, hphase, reduceCtorEq] at hstep
    case sleeping a toolResults =>
      cases hstep
      rw [hphase] at hat
      cases (Bool.not_eq_true' hasQueued).mp hquiet
      exact State.boundInv_wake hwithin hat
  | compacted outcome hasQueued =>
    cases hphase : s.phase <;> simp only [step, hphase, reduceCtorEq] at hstep
    case compacting reason willRetry preflight =>
      cases hstep
      rw [hphase] at hat
      cases (Bool.not_eq_true' hasQueued).mp hquiet
      exact State.boundInv_compacted hwithin hat
  | beforeSettle continues =>
    cases hphase : s.phase <;> simp only [step, hphase, reduceCtorEq] at hstep
    case beforeSettle =>
      cases hstep
      cases (Bool.not_eq_true' continues).mp hquiet
      refine ⟨hwithin, ?_⟩
      rw [Bool.not_false, Bool.or_true]
      trivial
  | resume =>
    cases hphase : s.phase <;> simp only [step, hphase, reduceCtorEq] at hstep
    case continuing =>
      cases hstep
      rw [hphase] at hat
      exact ⟨hwithin, hat, by simp⟩
  | throw =>
    simp only [step] at hstep
    split at hstep <;> cases hstep
    exact ⟨hwithin, trivial⟩
  | settle =>
    cases hphase : s.phase <;> simp only [step, hphase, reduceCtorEq] at hstep
    case closing =>
      cases hstep
      refine ⟨?_, trivial⟩
      show FailuresWithin _ (if s.agentRunAbortRequested then s.finishCancelledRetry else s).calls
      split
      · rwa [State.calls_finishCancelledRetry]
      · exact hwithin
  | abort =>
    simp only [step] at hstep
    split at hstep <;> cases hstep
    · exact ⟨hwithin, hat⟩
    · exact ⟨hwithin, hat⟩
    · exact ⟨hwithin, hat⟩
  | write op =>
    simp only [step] at hstep
    split at hstep <;> cases hstep
    exact ⟨hwithin, hat⟩

/-- From an idle session on, whatever its counters. -/
def Starts (s : State) : Prop := s.phase = .idle ∧ s.calls = []

/-- **Retry and recovery cannot restart each other**: in every run of quiet
steps, failures with no other outcome between them are at most two rounds of
`maxRetries + 1`. -/
theorem failures_bounded (h : Run Starts (step patterns migrate)
      (fun s label => quiet maxRetries s label = true) s) :
    FailuresWithin (2 * (maxRetries + 1)) s.calls := by
  have hinv : BoundInv patterns maxRetries s := by
    refine h.invariant ?_ fun s label s' hs hq hstep =>
      boundInv_step hs hq hstep
    rintro s ⟨hphase, hcalls⟩
    refine ⟨hcalls ▸ FailuresWithin.nil _, ?_⟩
    unfold AtPhase
    rw [hphase]
    trivial
  exact hinv.within

end

/-! ## A prompt that fails as often as it can -/

/-- Two error texts, one for each kind of recovery. -/
def samplePatterns : ErrorPatterns where
  overflow text := text == "prompt is too long"
  nonOverflow _ := false
  cerebrasBodyless _ := false
  nonRetryableLimit _ := false
  retryable text := text == "overloaded"

def sampleSettings : RetrySettings := ⟨true, 1, 2000, 60000⟩

def sampleReadings : CheckReadings :=
  ⟨true, some ⟨"provider", "model", 200000, 32000⟩, false, false, true⟩

def sampleCompletion (stopReason : StopReason) (errorMessage : Option String) : Completion :=
  ⟨stopReason, errorMessage, [], "provider", "model", ⟨0, 0, 0, 0, 0⟩, 100⟩

/-- An idle session without entries. -/
def sampleStart : State where
  manager := LiveManager.blank false
  phase := .idle
  retryAttempt := 0
  overflowRecoveryAttempted := false
  lastAssistantMessage := none
  lastAssistantToolResults := []
  turnToolResults := []
  agentRunAbortRequested := false
  log := []
  calls := []

/-- A call that fails with this text, and the decision behind its run. -/
def sampleFailure (errorMessage : String) : List Act :=
  [ .request, .complete (sampleCompletion .error (some errorMessage)),
    .endTurn false .none false, .post sampleSettings sampleReadings false ]

def sampleRetry : List Act := [.omitAttempt, .wake true sampleReadings false, .resume]

def sampleRun : List Label :=
  (([Act.prompt [.user (some (.text "question")) 1]] ++ sampleFailure "overloaded" ++ sampleRetry
    ++ sampleFailure "prompt is too long"
    ++ [Act.compacted (.done "summary" (.lit "0") 10 none false) false, .resume]
    ++ sampleFailure "overloaded" ++ sampleRetry
    ++ sampleFailure "overloaded"
    ++ [Act.beforeSettle false, .settle])).map
      fun act => ⟨LiveManager.growingEnvironment, act⟩

theorem failures_bounded_sample :
    let s := Run.afterAll (step samplePatterns (·, false)) sampleStart sampleRun
    FailuresWithin (2 * (1 + 1)) s.calls ∧ s.calls.length = 4 :=
  ⟨failures_bounded (.of_check (.init ⟨rfl, rfl⟩) (by decide +kernel)), by decide +kernel⟩

end ReflectivePi.Recovery
