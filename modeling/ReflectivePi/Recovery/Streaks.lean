import ReflectivePi.Recovery.Bound
import ReflectivePi.Session.Extension

/-!
# Recovery — Streaks

The retries a session announces, read off its log. A streak counts its
attempts from one, hides the failed attempt each time, and is closed once:
with success right after a retried call that completed, without it otherwise.

`Scan.step` accepts the logs that do so; a run keeps the reading of its log in
step with the retry counter.
-/

namespace ReflectivePi.Recovery

open Agent (StopReason)
open Session

/-! ## Reading a log -/

inductive Streak where
  | closed
  /-- An attempt is announced and not yet hidden. -/
  | announced (attempt : Nat)
  | waiting (attempt : Nat)
  /-- A retried call has completed. -/
  | succeeded (attempt : Nat)
  deriving DecidableEq

/-- Neither an error nor an abort. -/
def Completion.completes (c : Completion) : Bool :=
  decide (c.stopReason ≠ .error) && decide (c.stopReason ≠ .aborted)

/-- The streak after some items, and the last response in them. -/
structure Scan where
  streak : Streak
  last : Option (EntryId × Completion)

namespace Scan

/-- The number of an attempt that may be announced now. -/
def nextAttempt (scan : Scan) : Option Nat :=
  match scan.streak with
  | .closed => some 1
  | .waiting attempt => some (attempt + 1)
  | _ => none

/-- One more item; `none` when it does not belong there. -/
def step (scan : Scan) : Item → Option Scan
  | .emitted (.autoRetryStart attempt maxAttempts _ _) =>
    if scan.nextAttempt = some attempt ∧ attempt ≤ maxAttempts ∧
        scan.last.any (fun last => last.2.stopReason = .error) then
      some { scan with streak := .announced attempt }
    else none
  | .omitted entryId _ _ =>
    match scan.streak with
    | .announced attempt =>
      if scan.last.map Prod.fst = some entryId then
        some { scan with streak := .waiting attempt }
      else none
    | _ => none
  | .response entryId c =>
    match scan.streak with
    | .closed => some ⟨.closed, some (entryId, c)⟩
    | .waiting attempt =>
      some ⟨if c.completes then .succeeded attempt else .waiting attempt, some (entryId, c)⟩
    | _ => none
  | .emitted (.autoRetryEnd success attempt _) =>
    if (scan.streak = .waiting attempt ∧ success = false) ∨
        (scan.streak = .succeeded attempt ∧ success = true) then
      some { scan with streak := .closed }
    else none
  | .emitted .agentSettled =>
    if scan.streak = .closed then some scan else none
  | _ => some scan

end Scan

/-- The reading of a log, when every item belongs where it is. -/
def scan (log : List Item) : Option Scan :=
  log.foldlM Scan.step ⟨.closed, none⟩

theorem scan_concat (log : List Item) (item : Item) :
    scan (log ++ [item]) = (scan log).bind fun s => s.step item := by
  simp [scan, List.foldlM_append]

/-- Items that say nothing about a streak. -/
def Item.neutral : Item → Bool
  | .request _ => true
  | .emitted (.compactionStart _) | .emitted (.compactionEnd _ _ _ _)
  | .emitted (.entryAppended _) => true
  | _ => false

theorem scan_neutral {log : List Item} {item : Item}
    (h : item.neutral = true) : scan (log ++ [item]) = scan log := by
  rw [scan_concat]
  cases hscan : scan log with
  | none => rfl
  | some s =>
    cases item with
    | emitted event => cases event <;> first | rfl | simp [Item.neutral] at h
    | request context => rfl
    | _ => simp [Item.neutral] at h

/-! ## What the counter sees -/

/-- The part of a state that retries depend on. -/
structure RetryView where
  retryAttempt : Nat
  scan : Option Scan
  lastAssistantMessage : Option Attempt
  agentRunAbortRequested : Bool

namespace State

variable {env : Environment} {s : State}

def view (s : State) : RetryView :=
  ⟨s.retryAttempt, scan s.log, s.lastAssistantMessage, s.agentRunAbortRequested⟩

theorem view_emit {event : SessionEvent} (s : State) (h : (Item.emitted event).neutral = true) :
    (s.emit event).view = s.view := by
  unfold view emit
  rw [scan_neutral h]

theorem view_omitRecoveryAttempt (env : Environment) (s : State) (ids : List EntryId) :
    (s.omitRecoveryAttempt env ids).1.view = s.view := by
  induction ids generalizing s with
  | nil => rfl
  | cons id ids ih =>
    unfold omitRecoveryAttempt
    split
    · rfl
    · rw [ih, view_emit _ rfl]
      rfl

theorem view_finishCompaction (env : Environment) (s : State)
    (reason : Reason) (willRetry : Bool) (outcome : CompactionOutcome) :
    (s.finishCompaction env reason willRetry outcome).view = s.view := by
  cases outcome with
  | done => exact view_emit _ rfl
  | failed => exact view_emit _ rfl

theorem view_runAutoCompaction (s : State) (r : CheckReadings)
    (reason : Reason) (willRetry : Bool) :
    (s.runAutoCompaction r reason willRetry).1.view = s.view := by
  unfold runAutoCompaction
  split
  · rfl
  · exact view_emit _ rfl

theorem view_checkCompaction (patterns : ErrorPatterns) (env : Environment)
    (s : State) (a : Attempt) (skipAbortedCheck : Bool)
    (toolResults : List EntryId) (r : CheckReadings) :
    (s.checkCompaction patterns env a skipAbortedCheck toolResults r).1.view = s.view := by
  unfold checkCompaction
  dsimp only
  split
  · rfl
  split
  · rfl
  split
  · rfl
  split
  · split
    · exact view_runAutoCompaction s r _ _
    split
    · exact view_emit s rfl
    · have homitted := view_omitRecoveryAttempt env
        { s with overflowRecoveryAttempted := true } (a.entryId :: toolResults)
      generalize omitRecoveryAttempt env { s with overflowRecoveryAttempted := true }
        (a.entryId :: toolResults) = omission at homitted ⊢
      obtain ⟨s₁, returned⟩ := omission
      cases returned with
      | true => exact (view_runAutoCompaction s₁ r _ _).trans homitted
      | false => exact homitted
  · split
    · exact view_runAutoCompaction s r _ _
    · rfl

end State

/-! ## The counter and the reading -/

/-- The streak a counter stands for between announcements. -/
def streakOf (retryAttempt : Nat) : Streak :=
  if retryAttempt = 0 then .closed else .waiting retryAttempt

@[simp] theorem streakOf_zero : streakOf 0 = .closed := rfl

theorem streakOf_pos {retryAttempt : Nat} (h : 0 < retryAttempt) :
    streakOf retryAttempt = .waiting retryAttempt :=
  if_neg (Nat.pos_iff_ne_zero.mp h)

/-- The log reads as the counter says, and its last response is the one that
waits to be handled. -/
def InStep (v : RetryView) : Prop :=
  ∃ last, v.scan = some ⟨streakOf v.retryAttempt, last⟩ ∧
    ∀ a, v.lastAssistantMessage = some a → last = some (a.entryId, a.completion)

namespace State

variable {patterns : ErrorPatterns} {env : Environment} {s : State}
  {a : Attempt} {toolResults : List EntryId} {r : CheckReadings}

theorem retryAttempt_eq_of_view {s s' : State} (h : s'.view = s.view) :
    s'.retryAttempt = s.retryAttempt := congrArg RetryView.retryAttempt h

theorem inStep_fail (h : InStep s.view) (hr : 0 < s.retryAttempt) (finalError : Option String) :
    InStep ({ s.emit (.autoRetryEnd false s.retryAttempt finalError) with
      retryAttempt := 0 } : State).view := by
  obtain ⟨last, hscan, hlast⟩ := h
  refine ⟨last, ?_, hlast⟩
  rw [view] at hscan
  dsimp only at hscan
  simp [view, emit, scan_concat, hscan, Scan.step, streakOf_pos hr]

theorem inStep_finishCancelledRetry (h : InStep s.view) :
    InStep s.finishCancelledRetry.view ∧ s.finishCancelledRetry.retryAttempt = 0 := by
  unfold finishCancelledRetry
  split
  case isTrue hr => exact ⟨h, hr⟩
  case isFalse hr => exact ⟨inStep_fail h (Nat.pos_of_ne_zero hr) _, rfl⟩

theorem view_handleResponse (s : State) (c : Completion) :
    (s.handleResponse env c).view = if c.stopReason ≠ .error ∧ 0 < s.retryAttempt then
        ⟨0, scan (s.log ++ [.response (s.nextId env) c]
            ++ [.emitted (.autoRetryEnd true s.retryAttempt none)]),
          some ⟨c, s.nextId env⟩, s.agentRunAbortRequested⟩
      else
        ⟨s.retryAttempt, scan (s.log ++ [.response (s.nextId env) c]),
          some ⟨c, s.nextId env⟩, s.agentRunAbortRequested⟩ := by
  unfold handleResponse
  by_cases hreset : c.stopReason ≠ .error ∧ c.stopReason ≠ .length <;>
    by_cases hend : c.stopReason ≠ .error ∧ 0 < s.retryAttempt <;>
    simp only [hreset, hend, append, emit, view, if_false] <;>
    split <;> simp_all

/-- **A response keeps the reading**, and leaves a streak open only behind an
error; not so where an abort ends a retried call. -/
theorem inStep_handleResponse (env : Environment) {c : Completion} (h : InStep s.view)
    (hc : c.stopReason = .aborted → s.retryAttempt = 0) :
    InStep (s.handleResponse env c).view ∧
      (c.stopReason ≠ .error → (s.handleResponse env c).retryAttempt = 0) := by
  obtain ⟨last, hscan, -⟩ := h
  have hread : scan s.log = some ⟨streakOf s.retryAttempt, last⟩ := hscan
  rw [show (s.handleResponse env c).retryAttempt
    = (s.handleResponse env c).view.retryAttempt from rfl, view_handleResponse]
  by_cases hr : s.retryAttempt = 0
  · simp [InStep, hr, hread, scan_concat, Scan.step]
  · have hpos := Nat.pos_of_ne_zero hr
    have hwaiting := streakOf_pos hpos
    by_cases herror : c.stopReason = .error
    · have hincomplete : c.completes = false := by simp [Completion.completes, herror]
      simp [InStep, herror, hread, scan_concat, Scan.step, hwaiting, hincomplete]
    · have haborted : c.stopReason ≠ .aborted := fun heq => hr (hc heq)
      have hcompletes : c.completes = true := by
        simp [Completion.completes, herror, haborted]
      have hresponse : scan (s.log ++ [.response (s.nextId env) c])
          = some ⟨.succeeded s.retryAttempt, some (s.nextId env, c)⟩ := by
        simp [hread, scan_concat, Scan.step, hwaiting, hcompletes]
      rw [if_pos ⟨herror, hpos⟩]
      refine ⟨⟨some (s.nextId env, c), ?_, by simp⟩, fun _ => rfl⟩
      show scan (s.log ++ [.response (s.nextId env) c]
        ++ [.emitted (.autoRetryEnd true s.retryAttempt none)]) = _
      rw [scan_concat, hresponse]
      simp [Scan.step]

/-- An announcement within the limit, behind a failed response. -/
theorem scan_prepareRetry {settings : RetrySettings} {s' : State}
    (h : InStep s.view) (hlast : s.lastAssistantMessage = some a)
    (herror : a.completion.stopReason = .error)
    (hprepare : prepareRetry settings { s with
      lastAssistantMessage := none, lastAssistantToolResults := [] } a toolResults = some s') :
    scan s'.log = some ⟨.announced s'.retryAttempt,
      some (a.entryId, a.completion)⟩ ∧ 0 < s'.retryAttempt := by
  obtain ⟨hlimit, rfl⟩ := prepareRetry_eq_some hprepare
  obtain ⟨last, hscan, hpending⟩ := h
  have hread : scan s.log = some ⟨streakOf s.retryAttempt, last⟩ := hscan
  cases (hpending a hlast : last = _)
  have hnext : (⟨streakOf s.retryAttempt, some (a.entryId, a.completion)⟩
      : Scan).nextAttempt = some (s.retryAttempt + 1) := by
    by_cases hr : s.retryAttempt = 0
    · simp [Scan.nextAttempt, hr]
    · simp [Scan.nextAttempt, streakOf_pos (Nat.pos_of_ne_zero hr)]
  simp [emit, scan_concat, hread, Scan.step, hnext, hlimit, herror]

/-! ## Points of the loop -/

end State

/-- What the reading is at a point of the loop. -/
def StreakAt (s : State) : Prop :=
  match s.phase with
  | .idle | .beforeSettle | .compacting _ _ _ =>
    InStep s.view ∧ s.retryAttempt = 0
  | .requesting _ | .responding _ | .continuing | .sleeping _ _ => InStep s.view
  | .responded c =>
    InStep s.view ∧ (∃ id, s.lastAssistantMessage = some ⟨c, id⟩) ∧
      (c.stopReason ≠ .error → s.retryAttempt = 0)
  | .deciding =>
    InStep s.view ∧ ∃ a, s.lastAssistantMessage = some a ∧
      (a.completion.stopReason ≠ .error → s.retryAttempt = 0)
  | .omitting a _ =>
    scan s.log = some ⟨.announced s.retryAttempt,
      some (a.entryId, a.completion)⟩ ∧ 0 < s.retryAttempt ∧
      s.lastAssistantMessage = none ∧ s.agentRunAbortRequested = false
  | .closing =>
    InStep s.view ∧ (s.retryAttempt = 0 ∨ s.agentRunAbortRequested = true)

namespace State

variable {patterns : ErrorPatterns} {env : Environment} {s : State}
  {a : Attempt} {toolResults : List EntryId} {r : CheckReadings}
  {hasQueued : Bool}

theorem streakAt_proceed {continues : Bool} (h : InStep s.view)
    (hr : s.retryAttempt = 0) : StreakAt (s.proceed continues) := by
  unfold proceed
  split
  · exact ⟨h, .inl hr⟩
  · split
    · exact h
    · exact ⟨h, hr⟩

theorem streakAt_afterRetry (h : InStep s.view)
    (hr : a.completion.stopReason ≠ .error → s.retryAttempt = 0) :
    StreakAt (s.afterRetry patterns env a toolResults r hasQueued) := by
  unfold afterRetry
  dsimp only
  generalize hs₁ : (if a.completion.stopReason = .error ∧ 0 < s.retryAttempt then
      { s.emit (.autoRetryEnd false s.retryAttempt a.completion.errorMessage) with
        retryAttempt := 0 }
    else s) = s₁
  have hclosed : InStep s₁.view ∧ s₁.retryAttempt = 0 := by
    rw [← hs₁]
    split
    case isTrue hend => exact ⟨inStep_fail h hend.2 _, rfl⟩
    case isFalse hopen =>
      refine ⟨h, ?_⟩
      by_cases herror : a.completion.stopReason = .error
      · have : ¬ 0 < s.retryAttempt := fun hpos => hopen ⟨herror, hpos⟩
        omega
      · exact hr herror
  have hview := view_checkCompaction patterns env s₁ a true toolResults r
  generalize checkCompaction patterns env s₁ a true toolResults r = result at hview ⊢
  obtain ⟨s₂, check⟩ := result
  have hstep : InStep s₂.view := by
    rw [show s₂.view = s₁.view from hview]
    exact hclosed.1
  have hzero : s₂.retryAttempt = 0 := (retryAttempt_eq_of_view hview).trans hclosed.2
  cases check with
  | returns result => exact streakAt_proceed hstep hzero
  | compacts reason willRetry => exact ⟨hstep, hzero⟩
  | throws => exact ⟨hstep, .inl hzero⟩

theorem streakAt_handlePostAgentRun {settings : RetrySettings} (h : InStep s.view)
    (hlast : ∃ a, s.lastAssistantMessage = some a ∧
      (a.completion.stopReason ≠ .error → s.retryAttempt = 0)) :
    StreakAt (s.handlePostAgentRun patterns env settings r hasQueued) := by
  obtain ⟨a, hsome, hr⟩ := hlast
  unfold handlePostAgentRun
  split
  case isTrue habort => exact ⟨h, .inr habort⟩
  case isFalse habort =>
    simp only [hsome]
    have hcleared : InStep ({ s with
        lastAssistantMessage := none, lastAssistantToolResults := [] } : State).view := by
      obtain ⟨last, hscan, -⟩ := h
      exact ⟨last, hscan, by simp [view]⟩
    split
    case isFalse => exact streakAt_afterRetry hcleared hr
    case isTrue hretryable =>
      cases hprepare : prepareRetry settings { s with
          lastAssistantMessage := none, lastAssistantToolResults := [] } a
          s.lastAssistantToolResults with
      | none => exact streakAt_afterRetry hcleared hr
      | some s₁ =>
        obtain ⟨hscan, hpos⟩ := scan_prepareRetry h hsome
          (stopReason_of_isRetryableError hretryable) hprepare
        obtain ⟨-, rfl⟩ := prepareRetry_eq_some hprepare
        exact ⟨hscan, hpos, rfl, Bool.eq_false_iff.mpr habort⟩

theorem streakAt_omitAttempt
    (hscan : scan s.log = some ⟨.announced s.retryAttempt,
      some (a.entryId, a.completion)⟩) (hpos : 0 < s.retryAttempt)
    (hnone : s.lastAssistantMessage = none)
    (hreturns : (s.omitRecoveryAttempt env [a.entryId]).2 = true) :
    StreakAt (s.omitAttempt env a toolResults) := by
  have hview := view_omitRecoveryAttempt env s [a.entryId]
  unfold omitAttempt
  generalize s.omitRecoveryAttempt env [a.entryId] = omission at hview hreturns ⊢
  obtain ⟨s₁, returned⟩ := omission
  cases (hreturns : returned = true)
  have hlog : scan s₁.log = some ⟨.announced s₁.retryAttempt, some (a.entryId, a.completion)⟩ := by
    rw [retryAttempt_eq_of_view hview]
    exact (congrArg RetryView.scan hview).trans hscan
  refine ⟨some (a.entryId, a.completion), ?_, fun b hb => ?_⟩
  · have hpos₁ : 0 < s₁.retryAttempt := by
      rwa [retryAttempt_eq_of_view hview]
    simp [view, scan_concat, hlog, Scan.step, streakOf_pos hpos₁]
  · have hnone₁ : s₁.lastAssistantMessage = none :=
      (congrArg RetryView.lastAssistantMessage hview).trans hnone
    cases hnone₁.symm.trans hb

theorem streakAt_wake {elapsed : Bool} (h : InStep s.view) :
    StreakAt (s.wake patterns env a toolResults elapsed r hasQueued) := by
  have hcancelled := inStep_finishCancelledRetry h
  unfold wake
  split
  · split
    · exact ⟨hcancelled.1, .inl hcancelled.2⟩
    · exact h
  · dsimp only
    split
    · exact ⟨hcancelled.1, .inl hcancelled.2⟩
    · exact streakAt_afterRetry hcancelled.1 fun _ => hcancelled.2

theorem streakAt_compacted {reason : Reason} {willRetry preflight : Bool}
    {outcome : CompactionOutcome} (h : InStep s.view) (hr : s.retryAttempt = 0) :
    StreakAt (s.compacted env reason willRetry preflight outcome hasQueued) := by
  have hview := view_finishCompaction env s reason willRetry outcome
  have hstep : InStep (s.finishCompaction env reason willRetry outcome).view := hview ▸ h
  have hzero := (retryAttempt_eq_of_view hview).trans hr
  unfold compacted
  dsimp only
  split
  · exact ⟨hstep, hzero⟩
  · exact streakAt_proceed hstep hzero

theorem streakAt_endTurn {c : Completion} {terminate drained : Bool}
    {decision : Decision} (h : InStep s.view) (hlast : ∃ id, s.lastAssistantMessage = some ⟨c, id⟩)
    (hr : c.stopReason ≠ .error → s.retryAttempt = 0) :
    StreakAt (s.endTurn c terminate decision drained) := by
  obtain ⟨id, hlast⟩ := hlast
  unfold endTurn
  split
  · exact ⟨h, _, hlast, hr⟩
  · dsimp only
    split
    · exact ⟨h, _, hlast, hr⟩
    · split
      · exact h
      · exact ⟨h, _, hlast, hr⟩

theorem streakAt_handleRunFailure {c : Completion} (h : InStep s.view)
    (hc : c.stopReason = .aborted → s.retryAttempt = 0) : StreakAt (s.handleRunFailure env c) := by
  obtain ⟨hstep, hr⟩ := inStep_handleResponse env h hc
  exact ⟨hstep, _, lastAssistantMessage_handleResponse s c, hr⟩

theorem view_foldl_handleMessage (env : Environment) (s : State) (messages : List AgentMessage) :
    (messages.foldl (handleMessage env) s).view = s.view ∧
      (messages.foldl (handleMessage env) s).phase = s.phase := by
  induction messages generalizing s with
  | nil => exact ⟨rfl, rfl⟩
  | cons message messages ih =>
    have hone : (s.handleMessage env message).view = s.view ∧
        (s.handleMessage env message).phase = s.phase := by
      cases message <;> exact ⟨rfl, rfl⟩
    obtain ⟨hview, hphase⟩ := ih (s.handleMessage env message)
    exact ⟨hview.trans hone.1, hphase.trans hone.2⟩

end State

/-! ## Steps -/

/-- The attempts that were hidden for a retry. -/
def retried (log : List Item) : List EntryId :=
  log.filterMap fun
    | .omitted id _ _ => some id
    | _ => none

/-- No retried call is aborted, nothing is thrown out of the loop while a
streak is open, unless an abort was asked for, and nobody moves the branch or
edits a retried attempt. -/
def orderly (s : State) : Act → Bool
  | .complete c | .fail c =>
    !(decide (c.stopReason = .aborted) && decide (0 < s.retryAttempt))
  | .throw => decide (s.retryAttempt = 0) || s.agentRunAbortRequested
  | .write op => op.spares (retried s.log)
  | _ => true

section

variable {patterns : ErrorPatterns} {s s' : State} {env : Environment}
  {migrate : List FileEntry → List FileEntry × Bool} {act : Act}

theorem streakAt_congr (hphase : s'.phase = s.phase) (hview : s'.view = s.view)
    (h : StreakAt s) : StreakAt s' := by
  have hr := State.retryAttempt_eq_of_view hview
  have hlast : s'.lastAssistantMessage = s.lastAssistantMessage :=
    congrArg RetryView.lastAssistantMessage hview
  have habort : s'.agentRunAbortRequested = s.agentRunAbortRequested :=
    congrArg RetryView.agentRunAbortRequested hview
  have hscan : scan s'.log = scan s.log := congrArg RetryView.scan hview
  unfold StreakAt at h ⊢
  rw [hphase, hview, hr, hlast, habort, hscan]
  exact h

theorem streakAt_abort (h : StreakAt s)
    (hphase : ∀ a toolResults, s.phase ≠ .omitting a toolResults) :
    StreakAt { s with agentRunAbortRequested := true } := by
  unfold StreakAt at h ⊢
  cases hp : s.phase with
  | omitting a toolResults => exact absurd hp (hphase a toolResults)
  | closing =>
    rw [hp] at h
    exact ⟨h.1, .inr rfl⟩
  | _ =>
    rw [hp] at h
    exact h

theorem retryAttempt_of_aborted {c : Completion}
    (h : (!(decide (c.stopReason = .aborted) && decide (0 < s.retryAttempt)))
      = true) (haborted : c.stopReason = .aborted) : s.retryAttempt = 0 := by
  simpa [haborted] using h

theorem inStep_of_streakAt (h : StreakAt s)
    (hphase : ∀ a toolResults, s.phase ≠ .omitting a toolResults) : InStep s.view := by
  unfold StreakAt at h
  cases hp : s.phase with
  | omitting a toolResults => exact absurd hp (hphase a toolResults)
  | requesting | responding | continuing | sleeping =>
    rw [hp] at h
    exact h
  | _ =>
    rw [hp] at h
    exact h.1

/-- **Every orderly step keeps the reading**, when an announced attempt can be
hidden. -/
theorem streakAt_step (h : StreakAt s) (horderly : orderly s act = true)
    (hhide : ∀ a toolResults, s.phase = .omitting a toolResults →
      (s.omitRecoveryAttempt env [a.entryId]).2 = true)
    (hstep : step patterns migrate s ⟨env, act⟩ = some s') : StreakAt s' := by
  have hat := h
  unfold StreakAt at hat
  cases act with
  | prompt messages =>
    cases hphase : s.phase <;> simp only [step, hphase, reduceCtorEq] at hstep
    case idle =>
      cases hstep
      rw [hphase] at hat
      obtain ⟨hview, hframe⟩ := State.view_foldl_handleMessage env { s with
          agentRunAbortRequested := false, calls := [], phase := .requesting false } messages
      refine streakAt_congr hframe hview ?_
      exact hat.1
  | preflight a r =>
    cases hphase : s.phase <;> simp only [step, hphase, reduceCtorEq] at hstep
    case idle =>
      rw [hphase] at hat
      have hview := State.view_checkCompaction patterns env s a false [] r
      generalize s.checkCompaction patterns env a false [] r = result at hstep hview
      obtain ⟨s₁, check⟩ := result
      have hafter : InStep s₁.view ∧ s₁.retryAttempt = 0 :=
        ⟨hview ▸ hat.1, (State.retryAttempt_eq_of_view hview).trans hat.2⟩
      cases check <;> cases hstep <;> exact hafter
  | deliver source message =>
    cases hphase : s.phase <;> simp only [step, hphase, reduceCtorEq] at hstep
    case requesting turned =>
      split at hstep <;> cases hstep
      obtain ⟨hview, hframe⟩ := State.view_foldl_handleMessage env s [message]
      exact streakAt_congr hframe hview h
  | request =>
    cases hphase : s.phase <;> simp only [step, hphase, reduceCtorEq] at hstep
    case requesting turned =>
      cases hstep
      rw [hphase] at hat
      obtain ⟨last, hscan, hlast⟩ := hat
      exact ⟨last, (scan_neutral rfl).trans hscan, hlast⟩
  | complete c =>
    cases hphase : s.phase <;> simp only [step, hphase, reduceCtorEq] at hstep
    case responding turned =>
      cases hstep
      rw [hphase] at hat
      obtain ⟨hafter, hr⟩ := State.inStep_handleResponse env hat (retryAttempt_of_aborted horderly)
      exact ⟨hafter, ⟨_, State.lastAssistantMessage_handleResponse s c⟩, hr⟩
  | fail c =>
    have haborted := retryAttempt_of_aborted horderly
    cases hphase : s.phase <;> simp only [step, hphase, reduceCtorEq] at hstep
    case requesting turned =>
      rw [hphase] at hat
      split at hstep <;> cases hstep
      exact State.streakAt_handleRunFailure hat haborted
    case responding turned =>
      rw [hphase] at hat
      split at hstep <;> cases hstep
      exact State.streakAt_handleRunFailure hat haborted
    case responded last =>
      rw [hphase] at hat
      split at hstep <;> cases hstep
      exact State.streakAt_handleRunFailure hat.1 haborted
  | toolResult message =>
    cases hphase : s.phase <;> simp only [step, hphase, reduceCtorEq] at hstep
    case responded c =>
      cases hstep
      exact streakAt_congr rfl rfl h
  | endTurn terminate decision drained =>
    cases hphase : s.phase <;> simp only [step, hphase, reduceCtorEq] at hstep
    case responded c =>
      cases hstep
      rw [hphase] at hat
      exact State.streakAt_endTurn hat.1 hat.2.1 hat.2.2
  | post settings r hasQueued =>
    cases hphase : s.phase <;> simp only [step, hphase, reduceCtorEq] at hstep
    case deciding =>
      cases hstep
      rw [hphase] at hat
      exact State.streakAt_handlePostAgentRun hat.1 hat.2
  | omitAttempt =>
    cases hphase : s.phase <;> simp only [step, hphase, reduceCtorEq] at hstep
    case omitting a toolResults =>
      cases hstep
      rw [hphase] at hat
      exact State.streakAt_omitAttempt hat.1 hat.2.1 hat.2.2.1 (hhide a toolResults hphase)
  | wake elapsed r hasQueued =>
    cases hphase : s.phase <;> simp only [step, hphase, reduceCtorEq] at hstep
    case sleeping a toolResults =>
      cases hstep
      rw [hphase] at hat
      exact State.streakAt_wake hat
  | compacted outcome hasQueued =>
    cases hphase : s.phase <;> simp only [step, hphase, reduceCtorEq] at hstep
    case compacting reason willRetry preflight =>
      cases hstep
      rw [hphase] at hat
      exact State.streakAt_compacted hat.1 hat.2
  | beforeSettle continues =>
    cases hphase : s.phase <;> simp only [step, hphase, reduceCtorEq] at hstep
    case beforeSettle =>
      cases hstep
      rw [hphase] at hat
      split
      · exact ⟨hat.1, .inl hat.2⟩
      · exact hat.1
  | resume =>
    cases hphase : s.phase <;> simp only [step, hphase, reduceCtorEq] at hstep
    case continuing =>
      cases hstep
      rw [hphase] at hat
      exact hat
  | throw =>
    have hopen : s.retryAttempt = 0 ∨ s.agentRunAbortRequested = true := by
      simpa [orderly] using horderly
    have hphase : ∀ a toolResults, s.phase ≠ .omitting a toolResults := by
      intro a toolResults hp
      rw [hp] at hat
      rcases hopen with hzero | habort
      · omega
      · simp [hat.2.2.2] at habort
    have hread := inStep_of_streakAt h hphase
    simp only [step] at hstep
    split at hstep <;> cases hstep
    exact ⟨hread, hopen⟩
  | settle =>
    cases hphase : s.phase <;> simp only [step, hphase, reduceCtorEq] at hstep
    case closing =>
      cases hstep
      rw [hphase] at hat
      generalize hs₁ :
        (if s.agentRunAbortRequested then s.finishCancelledRetry else s) = s₁
      have hclosed : InStep s₁.view ∧ s₁.retryAttempt = 0 := by
        rw [← hs₁]
        split
        · exact State.inStep_finishCancelledRetry hat.1
        case isFalse habort => exact ⟨hat.1, hat.2.resolve_right habort⟩
      obtain ⟨⟨last, hscan, hlast⟩, hzero⟩ := hclosed
      have hread : scan s₁.log = some ⟨.closed, last⟩ := by
        rw [show scan s₁.log = s₁.view.scan from rfl, hscan]
        simp [State.view, hzero]
      refine ⟨⟨last, ?_, hlast⟩, hzero⟩
      simp [State.view, State.withPhase, State.emit, scan_concat, hread, Scan.step, hzero]
  | abort =>
    cases hphase : s.phase <;> simp only [step, hphase, reduceCtorEq] at hstep
    case idle =>
      cases hstep
      exact h
    case compacting reason willRetry preflight =>
      cases preflight <;> cases hstep
      · rw [← hphase]
        exact streakAt_abort h fun _ _ hp => by simp [hp] at hphase
      · exact h
    all_goals
      cases hstep
      rw [← hphase]
      exact streakAt_abort h fun _ _ hp => by simp [hp] at hphase
  | write op =>
    simp only [step] at hstep
    split at hstep <;> cases hstep
    exact streakAt_congr rfl rfl h

end

end ReflectivePi.Recovery
