import ReflectivePi.Recovery.AgentSession

/-!
# Recovery — AssistantCall

One call of a model with retries, and what its callbacks are told on every way
out of the loop. What the call, a sleep or a callback comes back with is given
for each round beforehand; a callback that is absent does nothing.
-/

namespace ReflectivePi.Recovery.AssistantCall

open List

/-- Round `n` is the one of retry `n`; round 0 has only a call. -/
structure Rounds where
  /-- What `produce` resolves with; `none` when it throws. -/
  produce : Nat → Option Completion
  /-- The signal is aborted before the sleep ends. -/
  aborts : Nat → Bool
  scheduledThrows : Nat → Bool
  startThrows : Nat → Bool
  finishedThrows : Bool

inductive Event where
  | produce
  | onRetryScheduled (attempt maxAttempts delayMs : Nat) (errorMessage : String)
  | sleep (aborted : Bool)
  | onRetryAttemptStart
  | onRetryFinished (success : Bool) (attempt : Nat) (finalError : Option String)
  deriving DecidableEq

namespace Event

def isScheduled : Event → Bool
  | onRetryScheduled .. => true
  | _ => false

def isFinished : Event → Bool
  | onRetryFinished .. => true
  | _ => false

end Event

/-- What happens, and what the promise resolves with; `none` when it rejects. -/
structure Run where
  events : List Event
  response : Option Completion

def Run.after (events : List Event) (run : Run) : Run := ⟨events ++ run.events, run.response⟩

/-- `RetrySleepAbortError` caught: the response as a provider's stream gives it. -/
def toAborted (response : Completion) : Completion :=
  { response with stopReason := .aborted, errorMessage := none }

section

variable (patterns : ErrorPatterns) (policy : Option RetrySettings) (rounds : Rounds)

def maxAttempts : Nat :=
  match policy with
  | none => 0
  | some policy => if policy.enabled then policy.maxRetries else 0

/-- `retryDelayMs(policy!, attempt)`: without a policy nothing is retried. -/
def delayMs (attempt : Nat) : Nat := policy.elim 0 (retryDelayMs · attempt)

/-- The end of the loop: there was a retry when the attempt is not 0. -/
def finish (attempt : Nat) (success : Bool) (finalError : Option String)
    (response : Completion) : Run :=
  if attempt = 0 then ⟨[], some response⟩
  else ⟨[.onRetryFinished success attempt finalError],
    if rounds.finishedThrows then none else some response⟩

/-- The next round of the loop, with `left` retries to go. -/
def callLoop : (left attempt : Nat) → Run
  | left, attempt =>
    match rounds.produce attempt with
    | none => ⟨[.produce], none⟩
    | some response =>
      let ends (success : Bool) (finalError : Option String) : Run :=
        (finish rounds attempt success finalError response).after [.produce]
      if response.stopReason = .aborted then ends false none
      else if response.stopReason ≠ .error then ends true none
      else if isRetryableAssistantError patterns response = false then
        ends false response.errorMessage
      else
        match left with
        | 0 => ends false response.errorMessage
        | left + 1 =>
          let attempt := attempt + 1
          let errorMessage := response.errorText.getD "Unknown error"
          let scheduled := [.produce, .onRetryScheduled attempt (maxAttempts policy)
            (delayMs policy attempt) errorMessage]
          if rounds.scheduledThrows attempt then ⟨scheduled, none⟩
          else if rounds.aborts attempt then
            (finish rounds attempt false (some errorMessage) (toAborted response)).after
              (scheduled ++ [.sleep true])
          else if rounds.startThrows attempt then
            ⟨scheduled ++ [.sleep false, .onRetryAttemptStart], none⟩
          else (callLoop left attempt).after
            (scheduled ++ [.sleep false, .onRetryAttemptStart])

def retryAssistantCall : Run := callLoop patterns policy rounds (maxAttempts policy) 0

/-! ## The brackets around a retry -/

/-- What has to come right before an event. -/
def Event.Precedes (e : Event) : Event → Prop
  | .produce => e = .onRetryAttemptStart
  | .onRetryAttemptStart => e = .sleep false
  | .sleep _ => e.isScheduled
  | .onRetryScheduled .. | .onRetryFinished .. => True

/-- The last call of a run whose first one is `first`. -/
def Run.last (run : Run) (first : Nat) : Option Completion :=
  rounds.produce (first + run.events.count .produce - 1)

/-- `onRetryFinished` is called once and tells how the last call came out. -/
def Run.FinishedOnce (run : Run) (first : Nat) : Prop :=
  ∃ success attempt finalError,
    run.events.filter Event.isFinished = [.onRetryFinished success attempt finalError] ∧
    (success = true ↔ ∃ last, run.last rounds first = some last ∧
      last.stopReason ≠ .aborted ∧ last.stopReason ≠ .error)

/-- The last response, an aborted one when the signal was aborted in a sleep. -/
def Run.Responds (run : Run) (first : Nat) : Prop :=
  ∀ response, run.response = some response → ∃ last, run.last rounds first = some last ∧
    response = if .sleep true ∈ run.events then toAborted last else last

structure Run.Bracketed (run : Run) : Prop where
  calls : run.events.count .produce ≤ maxAttempts policy + 1
  starts : run.events.head? = some .produce
  order : run.events.IsChain Event.Precedes
  finished : (∃ e ∈ run.events, e.isScheduled) → run.FinishedOnce rounds 0
  responds : run.Responds rounds 0

/-! ## Rounds in which nothing throws -/

/-- A call that fails in a way that is worth a retry. -/
def Rounds.Fails (n : Nat) : Prop :=
  ∃ response, rounds.produce n = some response ∧ response.stopReason = .error ∧
    isRetryableAssistantError patterns response = true

/-- After call `first`, no callback of a retry that is reached throws and neither
does its call. -/
def Rounds.CalmFrom (left first : Nat) : Prop :=
  ∀ n, first < n → n ≤ first + left →
    (∀ k, first ≤ k → k < n → rounds.Fails patterns k) →
    (∀ k, first < k → k < n →
      rounds.scheduledThrows k = false ∧ rounds.aborts k = false ∧ rounds.startThrows k = false) →
    rounds.scheduledThrows n = false ∧
      (rounds.aborts n = false → rounds.startThrows n = false ∧ rounds.produce n ≠ none)

def Rounds.Calm : Prop := rounds.CalmFrom patterns (maxAttempts policy) 0

end

section

variable {patterns : ErrorPatterns} {policy : Option RetrySettings} {rounds : Rounds}
  {left first : Nat} {response : Completion}

theorem calmFrom_of_not_fails (h : left = 0 ∨ ¬ rounds.Fails patterns first) :
    rounds.CalmFrom patterns left first := by
  intro n hfirst hle hfails
  rcases h with rfl | h
  · omega
  · exact absurd (hfails first le_rfl hfirst) h

theorem calmFrom_succ (h : rounds.Fails patterns first) :
    rounds.CalmFrom patterns (left + 1) first ↔
      rounds.scheduledThrows (first + 1) = false ∧
        (rounds.aborts (first + 1) = false → rounds.startThrows (first + 1) = false ∧
          rounds.produce (first + 1) ≠ none ∧
          rounds.CalmFrom patterns left (first + 1)) := by
  constructor
  · intro hcalm
    obtain ⟨hscheduled, hrest⟩ := hcalm (first + 1) (by omega) (by omega)
      (fun k hk hlt => by rwa [show k = first by omega]) (by omega)
    refine ⟨hscheduled, fun haborts => ⟨(hrest haborts).1, (hrest haborts).2, ?_⟩⟩
    intro n hfirst hle hfails hquiet
    refine hcalm n (by omega) (by omega) (fun k hk hlt => ?_) (fun k hk hlt => ?_)
    · obtain rfl | hk := Nat.eq_or_lt_of_le hk
      · exact h
      · exact hfails k hk hlt
    · obtain rfl | hk := Nat.eq_or_lt_of_le (Nat.succ_le_of_lt hk)
      · exact ⟨hscheduled, haborts, (hrest haborts).1⟩
      · exact hquiet k hk hlt
  · rintro ⟨hscheduled, hrest⟩ n hfirst hle hfails hquiet
    obtain rfl | hn := Nat.eq_or_lt_of_le (Nat.succ_le_of_lt hfirst)
    · exact ⟨hscheduled, fun haborts => ⟨(hrest haborts).1, (hrest haborts).2.1⟩⟩
    · have hnow := hquiet (first + 1) (by omega) hn
      exact (hrest hnow.2.1).2.2 n hn (by omega) (fun k hk => hfails k (by omega))
        (fun k hk => hquiet k (by omega))

/-- What holds of the rest of the loop from call `first` on. -/
structure Run.Told (run : Run) (patterns : ErrorPatterns) (rounds : Rounds)
    (left first : Nat) : Prop where
  calls : run.events.count .produce ≤ left + 1
  starts : ∃ tail, run.events = .produce :: tail
  order : run.events.IsChain Event.Precedes
  finished : ((0 < first ∨ ∃ e ∈ run.events, e.isScheduled) → run.FinishedOnce rounds first) ↔
    (0 < first → rounds.produce first ≠ none) ∧ rounds.CalmFrom patterns left first
  responds : run.Responds rounds first

theorem told_threw (h : rounds.produce first = none) :
    Run.Told ⟨[.produce], none⟩ patterns rounds left first where
  calls := by simp
  starts := ⟨[], rfl⟩
  order := by simp
  finished := by
    have hcalm : rounds.CalmFrom patterns left first :=
      calmFrom_of_not_fails (.inr (by simp [Rounds.Fails, h]))
    simp [h, hcalm, Run.FinishedOnce, Event.isFinished, Event.isScheduled]
  responds _ h := by cases h

theorem told_ends {success : Bool} {finalError : Option String}
    (hsome : rounds.produce first = some response)
    (hsuccess : success = true ↔ response.stopReason ≠ .aborted ∧ response.stopReason ≠ .error)
    (hends : left = 0 ∨ ¬ rounds.Fails patterns first) :
    ((finish rounds first success finalError response).after [.produce]).Told
      patterns rounds left first := by
  have hcalm := calmFrom_of_not_fails hends
  unfold finish
  split
  · subst first
    exact ⟨by simp [Run.after], ⟨_, rfl⟩, by simp [Run.after],
      by simp [*, Run.after, Event.isScheduled],
      by simp [Run.Responds, Run.after, Run.last, hsome]⟩
  · exact ⟨by simp [Run.after], ⟨_, rfl⟩, by simp [Run.after, Event.Precedes],
      by simp [*, Run.after, Run.FinishedOnce, Run.last, Event.isFinished, List.filter],
      by simp [Run.Responds, Run.after, Run.last, hsome]⟩

theorem callLoop_told :
    (callLoop patterns policy rounds left first).Told patterns rounds left first := by
  induction left generalizing first with
  | zero =>
    unfold callLoop
    cases hsome : rounds.produce first with
    | none => exact told_threw hsome
    | some response =>
      dsimp only
      split_ifs <;> exact told_ends hsome (by simp [*]) (.inl rfl)
  | succ left ih =>
    unfold callLoop
    cases hsome : rounds.produce first with
    | none => exact told_threw hsome
    | some response =>
      have hfails : rounds.Fails patterns first ↔ response.stopReason = .error ∧
          isRetryableAssistantError patterns response = true := by
        simp [Rounds.Fails, hsome]
      dsimp only
      split_ifs with haborted herror hretryable hthrows haborts hstart
      · exact told_ends hsome (by simp [*]) (.inr (by simp [*]))
      · exact told_ends hsome (by simp [*]) (.inr (by simp [*]))
      · exact told_ends hsome (by simp [*]) (.inr (by simp [*]))
      all_goals have hfails := hfails.mpr ⟨not_not.mp herror, by simpa using hretryable⟩
      · exact ⟨by simp, ⟨_, rfl⟩, by simp [Event.Precedes],
          by simp [calmFrom_succ hfails, hthrows, Run.FinishedOnce, Event.isScheduled,
            Event.isFinished, List.filter],
          fun _ h => by cases h⟩
      · refine ⟨?_, ⟨_, rfl⟩, ?_, ?_, ?_⟩
        · simp [finish, Run.after]
        · simp [finish, Run.after, Event.Precedes, Event.isScheduled]
        · simp [finish, Run.after, calmFrom_succ hfails, hthrows, haborts, hsome, Run.FinishedOnce,
            Run.last, Event.isScheduled, Event.isFinished, List.filter, not_not.mp herror]
        · simp [finish, Run.after, Run.Responds, Run.last, hsome]
      · exact ⟨by simp, ⟨_, rfl⟩, by simp [Event.Precedes, Event.isScheduled],
          by simp [calmFrom_succ hfails, hstart, haborts, Run.FinishedOnce, Event.isScheduled,
            Event.isFinished, List.filter],
          fun _ h => by cases h⟩
      · obtain ⟨hcalls, ⟨tail, htail⟩, horder, hfinished, hresponds⟩ := @ih (first + 1)
        generalize callLoop patterns policy rounds left (first + 1) = run at *
        -- The round adds one call and nothing that ends the loop.
        have hlast (events : List Event) (hcount : events.count .produce = 1) :
            (run.after events).last rounds first = run.last rounds (first + 1) := by
          rw [Run.last, Run.after, count_append, hcount, Run.last]
          congr 1
          omega
        have hshift (events : List Event) (hcount : events.count .produce = 1)
            (hfilter : events.filter Event.isFinished = []) :
            (run.after events).FinishedOnce rounds first ↔ run.FinishedOnce rounds (first + 1) := by
          rw [Run.FinishedOnce, hlast events hcount, Run.after, filter_append, hfilter]
          rfl
        have hrest : run.FinishedOnce rounds (first + 1) ↔
            rounds.produce (first + 1) ≠ none ∧ rounds.CalmFrom patterns left (first + 1) := by
          simpa using hfinished
        refine ⟨?_, ⟨_, rfl⟩, ?_, ?_, ?_⟩
        · simp [Run.after]
          omega
        · rw [htail] at horder
          simp [Run.after, htail, horder, Event.Precedes, Event.isScheduled]
        · rw [hshift _ (by simp) (by simp [Event.isFinished]), hrest, calmFrom_succ hfails]
          simp [hthrows, haborts, hstart, hsome, Run.after, Event.isScheduled]
        · intro answer hanswer
          rw [hlast _ (by simp)]
          simpa [Run.after] using hresponds answer hanswer

/-- **The callbacks bracket the retries** exactly when no callback of a retry that
is reached throws and neither does its call. -/
theorem retryAssistantCall_bracketed_iff (patterns : ErrorPatterns)
    (policy : Option RetrySettings) (rounds : Rounds) :
    (retryAssistantCall patterns policy rounds).Bracketed policy rounds ↔
      rounds.Calm patterns policy := by
  obtain ⟨hcalls, ⟨tail, htail⟩, horder, hfinished, hresponds⟩ :=
    @callLoop_told patterns policy rounds (maxAttempts policy) 0
  simp only [lt_irrefl, false_or, false_implies, true_and] at hfinished
  exact ⟨fun h => hfinished.mp h.finished,
    fun h => ⟨hcalls, by rw [retryAssistantCall, htail]; rfl, horder, hfinished.mpr h, hresponds⟩⟩

/-- A call that throws after a retry: `onRetryFinished` is not called. -/
theorem retryAssistantCall_not_bracketed :
    ¬ ∀ (patterns : ErrorPatterns) (policy : Option RetrySettings) (rounds : Rounds),
      (retryAssistantCall patterns policy rounds).Bracketed policy rounds := by
  intro h
  let never : String → Bool := fun _ => false
  let failure : Completion := ⟨.error, some "terminated", [], "", "", ⟨0, 0, 0, 0, 0⟩, 0⟩
  have hbracketed := h ⟨never, never, never, never, fun _ => true⟩ (some ⟨true, 1, 2000, 60000⟩)
    ⟨fun n => if n = 0 then some failure else none, fun _ => false, fun _ => false,
      fun _ => false, false⟩
  obtain ⟨_, _, _, hfinished, _⟩ := hbracketed.finished (by decide)
  cases hfinished

end

end ReflectivePi.Recovery.AssistantCall
