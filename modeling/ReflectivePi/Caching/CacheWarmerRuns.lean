import ReflectivePi.Caching.CacheWarmer
import ReflectivePi.Lib.LabelledRun

/-!
# Caching — the warm requests of every run

Whatever the order of calls, timers, hook answers and ends of warm requests,
a warm request belongs to the current run, the mode allows it, it meets its
refresh deadline, and at most one is in flight. The safety limit and pi's own
decision are not looked at again after the decision hook was awaited: they
hold of the requests sent where neither passed nor changed meanwhile.
-/

namespace ReflectivePi.Caching

open List

/-! ## What a warm request has to meet -/

/-- The mode lets a run warm in the phase. -/
def ModeAllows (mode : CacheWarmingMode) (phase : Phase) : Prop :=
  mode = .idle ∨ (mode = .streaming ∧ phase = .streaming)

structure Sent.Proper (r : Sent) : Prop where
  current : r.current = some r.id
  mode : ModeAllows r.env.mode r.run.phase
  deadline : r.env.now ≤ r.run.refreshDeadlineAt
  safety : r.env.now ≤ r.run.startedAt + maxWarmingAgeMs r.run.phase
  justified : r.run.extensionOverride = true ∨
    (r.run.evaluate r.env.branch).expectedSavings ≥ minimumExpectedSavings

def ActiveRun.InFlight (run : ActiveRun) : Prop :=
  match run.activity with
  | .warming => run.aborted = false
  | _ => False

/-- The decision the hook was asked about, while its answer is awaited. -/
def ActiveRun.asked? (run : ActiveRun) : Option CacheWarmingDecision :=
  match run.activity with
  | .deciding asked => some asked
  | _ => none

/-- All warm requests sent were proper, and at most one that was not aborted
is in flight. -/
structure Warmer.Proper (w : Warmer) : Prop where
  sent : ∀ r ∈ w.sent, r.Proper
  oneInFlight : ∀ i j (hi : i < w.runs.length) (hj : j < w.runs.length),
    w.runs[i].InFlight → w.runs[j].InFlight → i = j

theorem modeAllows_of_no_reason {mode : CacheWarmingMode} {phase : Phase}
    (h : getModeStopReason mode phase = none) : ModeAllows mode phase := by
  cases mode <;> cases phase <;> simp_all [getModeStopReason, ModeAllows]

theorem evaluate_warm {model : Model} {phase : Phase} {branch : List BranchEntry}
    (h : (evaluate model phase branch).action = .warm) :
    (evaluate model phase branch).expectedSavings ≥ minimumExpectedSavings := by
  by_contra hlt
  have : (evaluate model phase branch).action = .stop := if_neg hlt
  rw [this] at h
  cases h

namespace Warmer

variable {w : Warmer} {run : ActiveRun} {id : Nat}

variable {env : Env}

theorem validateRun_passed (h : w.validateRun id run env = .passed) :
    w.current = some id ∧ getModeStopReason env.mode run.phase = none := by
  rw [validateRun] at h
  split at h
  · cases h
  · split at h
    · cases h
    · exact ⟨Decidable.not_not.mp ‹_›, ‹_›⟩

theorem mayRefresh_passed (h : w.mayRefresh id run env = .passed) :
    w.current = some id ∧ getModeStopReason env.mode run.phase = none ∧
      env.now ≤ run.refreshDeadlineAt := by
  rw [mayRefresh] at h
  split at h
  · obtain ⟨hcur, hmode⟩ := validateRun_passed ‹_›
    split at h
    · exact ⟨hcur, hmode, ‹_›⟩
    · cases h
  · exact absurd h ‹_›

/-! ## Who is not aborted -/

/-- A run that is not aborted is the current one. -/
def Owned (w : Warmer) : Prop :=
  ∀ (id : Nat) (run : ActiveRun), w.runs[id]? = some run → run.aborted = false → w.current = some id

theorem Owned.setRun (h : w.Owned) {run' : ActiveRun} (hrun : w.runs[id]? = some run)
    (heq : run'.aborted = run.aborted) : (w.setRun id run').Owned := by
  intro j other hget hnot
  have hget : (w.runs.set id run')[j]? = some other := hget
  by_cases hj : id = j
  · subst hj
    have hlt := (List.getElem?_eq_some_iff.mp hrun).1
    rw [getElem?_set_self hlt] at hget
    obtain rfl := Option.some.inj hget
    exact h id run hrun (heq ▸ hnot)
  · rw [getElem?_set_ne hj] at hget
    exact h j other hget hnot

theorem Owned.clearRun_aborted (h : w.Owned) (hrun : w.clearRun.runs[id]? = some run) :
    run.aborted = true := by
  rw [clearRun] at hrun
  by_contra hnot
  rw [Bool.not_eq_true] at hnot
  cases hcur : w.current with
  | none =>
    rw [hcur] at hrun
    exact Option.some_ne_none _ ((h id run hrun hnot).symm.trans hcur)
  | some current =>
    simp only [hcur] at hrun
    by_cases hid : current = id
    · subst hid
      rw [getElem?_modify_eq] at hrun
      obtain ⟨before, _, rfl⟩ := Option.map_eq_some_iff.mp hrun
      cases hnot
    · rw [getElem?_modify_ne _ _ hid] at hrun
      have := (h id run hrun hnot).symm.trans hcur
      exact hid (Option.some.inj this).symm

@[simp] theorem clearRun_sent (w : Warmer) : w.clearRun.sent = w.sent := by
  rw [clearRun]
  split <;> rfl

@[simp] theorem stop_sent (w : Warmer) (reason : String)
    (stopped : Option (CacheWarmingDecision × Bool)) : (w.stop reason stopped).sent = w.sent :=
  clearRun_sent w

@[simp] theorem setRun_sent (w : Warmer) (id : Nat) (run : ActiveRun) :
    (w.setRun id run).sent = w.sent := rfl

theorem Owned.stop (h : w.Owned) (reason : String)
    (stopped : Option (CacheWarmingDecision × Bool)) : (w.stop reason stopped).Owned := by
  intro id run hget hnot
  have := h.clearRun_aborted hget
  rw [hnot] at this
  cases this

theorem Owned.schedule (h : w.Owned) (hrun : w.runs[id]? = some run) (now : ℤ) :
    (w.schedule id run now).Owned := by
  dsimp only [Warmer.schedule]
  split
  · have hset : (w.setRun id { run.planned now with activity := .finished }).Owned :=
      h.setRun hrun rfl
    exact hset.stop _ _
  · exact h.setRun hrun rfl

@[simp] theorem schedule_sent (w : Warmer) (id : Nat) (run : ActiveRun) (now : ℤ) :
    (w.schedule id run now).sent = w.sent := by
  dsimp only [Warmer.schedule]
  split
  · rw [stop_sent, setRun_sent]
  · rfl

theorem Owned.add (h : w.Owned) (run : ActiveRun) : Owned { w.clearRun with
      runs := w.clearRun.runs ++ [run], current := some w.clearRun.runs.length } := by
  intro id other hget hnot
  have hget : (w.clearRun.runs ++ [run])[id]? = some other := hget
  rcases Nat.lt_or_ge id w.clearRun.runs.length with hlt | hge
  · rw [getElem?_append_left hlt] at hget
    have := h.clearRun_aborted hget
    rw [hnot] at this
    cases this
  · have hlt := (List.getElem?_eq_some_iff.mp hget).1
    rw [length_append, length_singleton] at hlt
    show some w.clearRun.runs.length = some id
    congr 1
    omega

theorem Owned.clearRun (h : w.Owned) : w.clearRun.Owned := by
  intro id run hget hnot
  have := h.clearRun_aborted hget
  rw [hnot] at this
  cases this

/-! ## One step -/


/-- The hook's answer lets the request through. -/
def Sends (w : Warmer) (id : Nat) (run : ActiveRun) (asked : CacheWarmingDecision)
    (answer : Option CacheWarmingAction) (env : Env) : Prop :=
  w.mayRefresh id run env = .passed ∧ answer.getD asked.action = .warm

/-- The safety limit of the phase is not passed, and where the hook does not
override pi's decision, pi would still decide as when the hook was asked. -/
def StillHolds (run : ActiveRun) (asked : CacheWarmingDecision)
    (answer : Option CacheWarmingAction) (env : Env) : Prop :=
  env.now ≤ run.safetyDeadline ∧ (answer.getD asked.action = asked.action →
      (run.evaluate env.branch).action = asked.action)

/-- At a hook answer that lets the request through, what was decided before
the hook still holds. -/
def Meets (w : Warmer) : Env × Event → Prop
  | (env, .hookAnswers id answer) => ∀ run ∈ w.runs[id]?, ∀ asked ∈ run.asked?,
      w.Sends id run asked answer env → StillHolds run asked answer env
  | _ => True

instance decidableSends (w : Warmer) (id : Nat) (run : ActiveRun)
    (asked : CacheWarmingDecision) (answer : Option CacheWarmingAction) (env : Env) :
    Decidable (w.Sends id run asked answer env) :=
  inferInstanceAs (Decidable (_ ∧ _))

instance decidableStillHolds (run : ActiveRun) (asked : CacheWarmingDecision)
    (answer : Option CacheWarmingAction) (env : Env) :
    Decidable (StillHolds run asked answer env) :=
  inferInstanceAs (Decidable (_ ∧ _))

instance decidableMeets (w : Warmer) : ∀ label, Decidable (w.Meets label)
  | (env, .hookAnswers id answer) =>
    inferInstanceAs (Decidable (∀ run ∈ w.runs[id]?, ∀ asked ∈ run.asked?,
      w.Sends id run asked answer env → StillHolds run asked answer env))
  | (_, .start _) => .isTrue trivial
  | (_, .onAgentSettled) => .isTrue trivial
  | (_, .onModeChanged) => .isTrue trivial
  | (_, .cancel) => .isTrue trivial
  | (_, .timerFires _) => .isTrue trivial
  | (_, .warmCompletes _ _) => .isTrue trivial

/-- The warm request the hook's answer lets through. -/
def sentBy (w : Warmer) (id : Nat) (run : ActiveRun) (asked : CacheWarmingDecision)
    (answer : Option CacheWarmingAction) (env : Env) : Sent :=
  { id, current := w.current, env
    run := { run with
      extensionOverride := decide (answer.getD asked.action ≠ asked.action)
      activity := .warming } }

variable {answer : Option CacheWarmingAction} {asked : CacheWarmingDecision}

theorem hookAnswers_sends (h : w.Sends id run asked answer env) :
    w.hookAnswers id run asked answer env =
      { w.setRun id (w.sentBy id run asked answer env).run with
        sent := w.sent ++ [w.sentBy id run asked answer env] } := by
  obtain ⟨hpassed, hwarm⟩ := h
  rw [hookAnswers, hpassed]
  dsimp only [sentBy]
  rw [hwarm]

theorem hookAnswers_silent (h : ¬ w.Sends id run asked answer env) :
    (w.hookAnswers id run asked answer env).sent = w.sent := by
  rw [hookAnswers]
  cases hcheck : w.mayRefresh id run env with
  | left => rfl
  | stopped reason => simp
  | passed =>
    cases haction : answer.getD asked.action with
    | stop => simp
    | warm => exact absurd ⟨hcheck, haction⟩ h

/-- **A warm request is proper exactly when what was decided before the hook
still holds.** -/
theorem sentBy_proper_iff (h : w.Sends id run asked answer env) :
    (w.sentBy id run asked answer env).Proper ↔ StillHolds run asked answer env := by
  obtain ⟨hpassed, hwarm⟩ := h
  obtain ⟨hcurrent, hmode, hdeadline⟩ := mayRefresh_passed hpassed
  constructor
  · intro hproper
    refine ⟨hproper.safety, fun hsame => ?_⟩
    rcases hproper.justified with hover | hsavings
    · exact absurd hsame (of_decide_eq_true hover)
    · rw [← hsame, hwarm]
      exact if_pos hsavings
  · rintro ⟨hsafety, hsame⟩
    refine ⟨hcurrent, modeAllows_of_no_reason hmode, hdeadline, hsafety, ?_⟩
    by_cases hover : answer.getD asked.action = asked.action
    · right
      apply evaluate_warm
      exact (hsame hover).trans (hover.symm.trans hwarm)
    · left
      exact decide_eq_true hover

theorem start_owned (h : w.Owned) (request : CacheWarmRequest) (env : Env) :
    (w.start request env).Owned := by
  have hcleared : w.clearRun.Owned := h.clearRun
  dsimp only [start]
  split
  · exact hcleared.stop _ _
  · split
    · exact hcleared.stop _ _
    · split
      · exact hcleared.stop _ _
      · split
        · exact hcleared.stop _ _
        · apply (h.add _).schedule
          simp

@[simp] theorem start_sent (w : Warmer) (request : CacheWarmRequest) (env : Env) :
    (w.start request env).sent = w.sent := by
  dsimp only [start]
  split
  · simp
  · split
    · simp
    · split
      · simp
      · split <;> simp

theorem onAgentSettled_owned (h : w.Owned) (env : Env) : (w.onAgentSettled env).Owned := by
  rw [onAgentSettled]
  split
  · exact h
  · split
    · exact h
    · rename_i id _ _ run hrun
      split
      · exact h.stop _ _
      · have hidle : (w.setRun id { run with phase := .idle }).Owned := h.setRun hrun rfl
        dsimp only
        split
        · exact hidle.stop _ _
        · exact hidle

@[simp] theorem onAgentSettled_sent (w : Warmer) (env : Env) :
    (w.onAgentSettled env).sent = w.sent := by
  rw [onAgentSettled]
  split
  · rfl
  · split
    · rfl
    · split
      · simp
      · dsimp only
        split <;> simp

theorem onModeChanged_cases (w : Warmer) (env : Env) :
    w.onModeChanged env = w ∨ ∃ reason, w.onModeChanged env = w.stop reason := by
  rw [onModeChanged]
  split
  · exact .inl rfl
  · split
    · exact .inl rfl
    · split
      · exact .inl rfl
      · exact .inr ⟨_, rfl⟩

theorem Owned.finish (h : w.Owned) (hrun : w.runs[id]? = some run) :
    (w.setRun id { run with activity := .finished }).Owned :=
  h.setRun hrun rfl

theorem timerFires_owned (h : w.Owned) (hrun : w.runs[id]? = some run) (env : Env) :
    (w.timerFires id run env).Owned := by
  rw [timerFires]
  split
  · exact h.finish hrun
  · exact (h.finish hrun).stop _ _
  · exact h.setRun hrun rfl

@[simp] theorem timerFires_sent (w : Warmer) (id : Nat) (run : ActiveRun) (env : Env) :
    (w.timerFires id run env).sent = w.sent := by
  rw [timerFires]
  split <;> simp

theorem hookAnswers_owned (h : w.Owned) (hrun : w.runs[id]? = some run)
    (asked : CacheWarmingDecision) (answer : Option CacheWarmingAction) (env : Env) :
    (w.hookAnswers id run asked answer env).Owned := by
  rw [hookAnswers]
  split
  · exact h.finish hrun
  · exact (h.finish hrun).stop _ _
  · dsimp only
    split
    · exact (h.finish hrun).stop _ _
    · exact h.setRun hrun rfl

theorem finishRefresh_owned (h : w.Owned) (hrun : w.runs[id]? = some run) (now : ℤ) :
    (w.finishRefresh id run now).Owned := by
  rw [finishRefresh]
  split
  · exact h.schedule hrun now
  · exact h.finish hrun

@[simp] theorem finishRefresh_sent (w : Warmer) (id : Nat) (run : ActiveRun) (now : ℤ) :
    (w.finishRefresh id run now).sent = w.sent := by
  rw [finishRefresh]
  split <;> simp

theorem warmCompletes_owned (h : w.Owned) (hrun : w.runs[id]? = some run)
    (outcome : Outcome) (env : Env) : (w.warmCompletes id run outcome env).Owned := by
  rw [warmCompletes.eq_def]
  split
  · exact finishRefresh_owned h hrun _
  · split
    · exact h.finish hrun
    · exact (h.finish hrun).stop _ _
    · dsimp only
      split
      · have hrecorded : Owned { w with warmed := w.warmed ++ [(id, run.extensionOverride)] } := h
        exact finishRefresh_owned hrecorded hrun _
      · exact finishRefresh_owned h hrun _

@[simp] theorem warmCompletes_sent (w : Warmer) (id : Nat) (run : ActiveRun)
    (outcome : Outcome) (env : Env) : (w.warmCompletes id run outcome env).sent = w.sent := by
  rw [warmCompletes.eq_def]
  split
  · simp
  · split
    · simp
    · simp
    · dsimp only
      split <;> simp

theorem step_kept {w' : Warmer} {label : Env × Event} (h : w.Owned)
    (hmeets : w.Meets label) (hstep : w.step label = some w') :
    w'.Owned ∧ ∀ r ∈ w'.sent, r ∈ w.sent ∨ r.Proper := by
  obtain ⟨env, event⟩ := label
  cases event with
  | start request =>
    obtain rfl := Option.some.inj hstep
    exact ⟨start_owned h request env, fun r hr => .inl (by simpa using hr)⟩
  | onAgentSettled =>
    obtain rfl := Option.some.inj hstep
    exact ⟨onAgentSettled_owned h env, fun r hr => .inl (by simpa using hr)⟩
  | onModeChanged =>
    obtain rfl := Option.some.inj hstep
    rcases w.onModeChanged_cases env with heq | ⟨reason, heq⟩
    · rw [heq]
      exact ⟨h, fun r hr => .inl hr⟩
    · rw [heq]
      exact ⟨h.stop _ _, fun r hr => .inl (by simpa using hr)⟩
  | cancel =>
    obtain rfl := Option.some.inj hstep
    exact ⟨h.stop _ _, fun r hr => .inl (by simpa [cancel] using hr)⟩
  | timerFires id =>
    simp only [step] at hstep
    split at hstep
    · cases hstep
    · split at hstep
      · obtain rfl := Option.some.inj hstep
        exact ⟨timerFires_owned h ‹_› env, fun r hr => .inl (by simpa using hr)⟩
      · cases hstep
  | hookAnswers id answer =>
    simp only [step] at hstep
    cases hrun : w.runs[id]? with
    | none =>
      rw [hrun] at hstep
      cases hstep
    | some run =>
      simp only [hrun] at hstep
      cases hactivity : run.activity with
      | deciding asked =>
        simp only [hactivity] at hstep
        obtain rfl := Option.some.inj hstep
        refine ⟨hookAnswers_owned h hrun asked answer env, fun r hr => ?_⟩
        by_cases hsends : w.Sends id run asked answer env
        · rw [hookAnswers_sends hsends] at hr
          rcases List.mem_append.mp hr with hr | hr
          · exact .inl hr
          · have hasked : asked ∈ run.asked? := by simp [ActiveRun.asked?, hactivity]
            rw [List.mem_singleton.mp hr]
            exact .inr ((sentBy_proper_iff hsends).mpr (hmeets run hrun asked hasked hsends))
        · rw [hookAnswers_silent hsends] at hr
          exact .inl hr
      | _ =>
        simp only [hactivity] at hstep
        cases hstep
  | warmCompletes id outcome =>
    simp only [step] at hstep
    split at hstep
    · cases hstep
    · split at hstep
      · obtain rfl := Option.some.inj hstep
        exact ⟨warmCompletes_owned h ‹_› outcome env, fun r hr => .inl (by simpa using hr)⟩
      · cases hstep

theorem Owned.oneInFlight (h : w.Owned) {i j : Nat} (hi : i < w.runs.length)
    (hj : j < w.runs.length) (hfi : w.runs[i].InFlight) (hfj : w.runs[j].InFlight) : i = j := by
  have hcurrent : ∀ k (hk : k < w.runs.length), w.runs[k].InFlight → w.current = some k := by
    intro k hk hflight
    apply h k _ (getElem?_eq_getElem hk)
    rw [ActiveRun.InFlight] at hflight
    split at hflight
    · exact hflight
    · cases hflight
  exact Option.some.inj ((hcurrent i hi hfi).symm.trans (hcurrent j hj hfj))

/-- A warmer as it is created. -/
def Fresh (w : Warmer) : Prop := w = {}

/-- **Every warm request is proper, in every run whose hook answers come while
what was decided still holds.** -/
theorem warms_proper {w : Warmer} (h : Run Fresh step Meets w) : w.Proper := by
  have hinv : w.Owned ∧ ∀ r ∈ w.sent, r.Proper := by
    refine Run.invariant (p := fun w => w.Owned ∧ ∀ r ∈ w.sent, r.Proper) ?_ ?_ h
    · rintro w rfl
      refine ⟨fun id run hget => ?_, fun r hr => ?_⟩
      · cases hget
      · cases hr
    · rintro w label w' ⟨howned, hsent⟩ hmeets hstep
      obtain ⟨howned', hnew⟩ := step_kept howned hmeets hstep
      refine ⟨howned', fun r hr => ?_⟩
      rcases hnew r hr with hold | hproper
      · exact hsent r hold
      · exact hproper
  exact ⟨hinv.2, fun i j hi hj => hinv.1.oneInFlight hi hj⟩

/-- A model with five dollars a million input tokens and a cache entry that
lives as long as given, in seconds. -/
def sampleModel (seconds : ℚ) : Model where
  api := "anthropic-messages"
  cost := { input := 5, output := 25, cacheRead := 1 / 2, cacheWrite := 25 / 4 }
  promptCacheShort := some seconds

def sampleEnv (now : ℤ) (promptTokens : ℚ) : Env where
  now := now
  mode := .idle
  branch := [.assistant { cacheRead := promptTokens }]
  isCurrent := true

/-- A request of the model, its first refresh, and the hook's answer at the
times given; the agent settles at `settled`. -/
def refreshRun (seconds promptTokens : ℚ) (fires settled answers : ℤ) : List (Env × Event) :=
  [(sampleEnv 0 promptTokens, .start { model := sampleModel seconds, options := {} }),
   (sampleEnv fires promptTokens, .timerFires 0), (sampleEnv settled promptTokens, .onAgentSettled),
   (sampleEnv answers promptTokens, .hookAnswers 0 none)]

/-- With a prompt that is worth warming in both phases all is well. -/
theorem warms_proper_sample :
    (Run.afterAll step {} (refreshRun 300 1000000 270000 270001 270002)).Proper :=
  warms_proper (Run.of_check (.init rfl) (by decide +kernel))

/-- The agent settles while the hook is awaited, and the request is sent
although pi would not send it while idle; and a request is sent three seconds
after the idle limit of its run. -/
theorem warms_improper :
    (∃ w, Run Fresh step (fun _ _ => True) w ∧ ∃ r ∈ w.sent, r.run.extensionOverride = false ∧
        (r.run.evaluate r.env.branch).expectedSavings < minimumExpectedSavings) ∧
    ∃ w, Run Fresh step (fun _ _ => True) w ∧ ∃ r ∈ w.sent, r.env.now > r.run.safetyDeadline := by
  refine ⟨⟨Run.afterAll step {} (refreshRun 300 100000 270000 270001 270002),
    Run.of_check (.init rfl) (by decide +kernel), ?_⟩,
    ⟨Run.afterAll step {} (refreshRun 1900 1000000 1710000 1710001 1803000),
    Run.of_check (.init rfl) (by decide +kernel), ?_⟩⟩
  · decide +kernel
  · decide +kernel

end Warmer

end ReflectivePi.Caching
