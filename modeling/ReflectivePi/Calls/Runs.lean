import ReflectivePi.Calls.Steps
import ReflectivePi.Lib.LabelledRun

/-!
# Calls — Runs

The runs that keep what callers rely on: those in which every agent run and
every manual compaction finds the session idle at the moment it starts, and
no failed compaction is still reporting when another one starts. `prompt`
looks long before its run starts, `sendCustomMessage` does not ask whether
the session is compacting, and `compact` goes on some time after its wait for
idle is resolved.
-/

namespace ReflectivePi.Calls

variable {s s' : State} {r : Reading} {i : CallId} {label : Label}

/-- The step starts an agent run. -/
def startsRun (s : State) (label : Label) : Bool :=
  match label.act, s.phase label.call with
  | .hooksDone true, .hooks => true
  | .sendCustomMessage (some true) false, .absent =>
    !s.isAgentRunActive && !s.isEmittingAgentSettled
  | .return _, .returning false =>
    match s.frames label.call with
    | ⟨.run :: _, _⟩ :: _ => true
    | _ => false
  | _, _ => false

/-- The step starts a manual compaction. -/
def startsCompaction (s : State) (label : Label) : Bool :=
  match label.act, s.phase label.call with
  | .resume, .released .compact => true
  | _, _ => false

/-- Whatever starts here finds the session idle, and a compaction finds no
other one reporting. -/
def orderly (s : State) (label : Label) : Bool :=
  (!startsRun s label || s.isIdle) &&
    (!startsCompaction s label || (s.isIdle && s.reporters.isEmpty))

/-! ## The parts of `prompt` and the rest -/

namespace Inv

section

variable (h : Inv s r)

include h

theorem enterInput (hview : s.views i = {}) : Inv (s.enterInput i) r := by
  unfold State.enterInput
  split <;> exact h.moveTo hview.symm

theorem enterPrompt (slash : Bool) (hview : s.views i = {}) :
    Inv (s.enterPrompt i slash) r := by
  unfold State.enterPrompt
  split
  · exact (h.moveTo (p := .returning false) hview.symm).congr [] (by simp) (by simp) (by simp)
      rfl rfl rfl
  · split
    · exact h.moveTo hview.symm
    · exact h.enterInput hview

theorem check (check : Check) (hview : s.views i = {}) : Inv (s.check i check) r := by
  cases check with
  | none => exact h.moveTo hview.symm
  | exhausted =>
    have hemit : Inv (s.emit (.compactionEnd none)) r :=
      h.congr [.compactionEnd none] rfl (by simp [Event.Neutral, Reading.after])
        (by simp [Event.other]) rfl rfl rfl
    exact hemit.moveTo hview.symm
  | compaction =>
    show Inv (s.startAuto i (.autoBefore · .working)) r
    exact h.startAuto (by rw [hview]) fun c => by rw [hview]; rfl

theorem afterInput (mayQueue : Bool) (auth : Auth) (hview : s.views i = {}) :
    Inv (s.afterInput i mayQueue auth) r := by
  unfold State.afterInput
  split
  · exact h.moveTo hview.symm
  case isFalse hinactive =>
    rw [Bool.not_eq_true] at hinactive
    have hopen := h.openCalls_of_inactive hinactive
    have hflushed : Inv s.flushBash.flushCustom r := (h.flushBash hopen).flushCustom hopen
    have hsame : s.flushBash.flushCustom.views i = {} := hview
    cases auth with
    | configured check => exact hflushed.check check hsame
    | _ => exact hflushed.moveTo hsame.symm

theorem recordBashResult (hview : s.views i = {}) : Inv (s.recordBashResult i) r := by
  unfold State.recordBashResult
  split
  · exact (h.moveTo (p := .done) hview.symm).congr [] (by simp) (by simp) (by simp) rfl rfl rfl
  case isFalse hinactive =>
    rw [Bool.not_eq_true] at hinactive
    have happended : Inv (s.emit .bash) r :=
      h.append (h.openCalls_of_inactive hinactive) (.inl rfl) 1
    exact happended.moveTo hview.symm

theorem sendCustomMessage (triggerTurn : Option Bool) (nextTurn : Bool)
    (hphase : s.phase i = .absent)
    (horderly : orderly s ⟨i, .sendCustomMessage triggerTurn nextTurn⟩ = true) :
    ∃ r', Inv (s.sendCustomMessage i triggerTurn nextTurn) r' := by
  have hview : s.views i = {} := by rw [State.views, hphase]; rfl
  have hdone : Inv (s.moveTo i .done) r := h.moveTo hview.symm
  unfold State.sendCustomMessage
  split
  · exact ⟨r, hdone⟩
  case isFalse hnext =>
    split
    · exact ⟨r, hdone⟩
    case isFalse hqueue =>
      split
      case isTrue htrigger =>
        subst htrigger
        split
        · exact ⟨r, hdone.congr [] (by simp) (by simp) (by simp) rfl rfl rfl⟩
        case isFalse hemitting =>
          have hidle : s.isIdle = true := by
            simpa [orderly, startsRun, startsCompaction, hphase, hnext, hemitting,
              show s.isAgentRunActive = false by simpa using hqueue] using horderly
          exact h.startRun hidle hview
      case isFalse =>
        split
        · exact ⟨r, hdone.congr [] (by simp) (by simp) (by simp) rfl rfl rfl⟩
        case isFalse hinactive =>
          rw [Bool.not_eq_true] at hinactive
          have happended : Inv (s.emit .custom) r :=
            h.append (h.openCalls_of_inactive hinactive) (.inr rfl) 1
          exact ⟨r, happended.moveTo hview.symm⟩

theorem wait (w : Waiter) (hview : s.views i = {}) : Inv (s.wait i w) r := by
  unfold State.wait
  dsimp only
  have hrequested : Inv { s with
      agentRunAbortRequested := s.agentRunAbortRequested ||
        (s.isAgentRunActive && decide (w ≠ Waiter.waitForIdle)) } r :=
    h.congr [] (by simp) (by simp) (by simp) rfl rfl rfl
  split
  case isTrue hidle =>
    have hnone := hrequested.exclusive.none_of_idle hidle
    refine Inv.moveTo (hrequested.congr [.idle] rfl ?_ (by simp [Event.other]) rfl rfl rfl)
      hview.symm
    simp [Event.Neutral, Reading.after, hnone]
  case isFalse => exact hrequested.moveTo hview.symm

theorem leaveFrame (rest : List Frame) (thrown : Bool) (hview : s.views i = {}) :
    Inv (s.leaveFrame i rest thrown) r := by
  refine Inv.resolveIdle ?_
  exact (h.moveTo (p := .returning thrown) hview.symm).congr [] (by simp) (by simp) (by simp)
    rfl rfl rfl

theorem nextAction (slash thrown : Bool) (hphase : s.phase i = .returning thrown)
    (horderly : orderly s ⟨i, .return slash⟩ = true) :
    ∃ r', Inv (s.nextAction i slash thrown) r' := by
  have hview : s.views i = {} := by rw [State.views, hphase]; rfl
  unfold State.nextAction
  cases hframes : s.frames i with
  | nil => exact ⟨r, h.moveTo hview.symm⟩
  | cons frame rest =>
    obtain ⟨actions, t⟩ := frame
    cases actions with
    | nil => exact ⟨r, h.leaveFrame rest _ hview⟩
    | cons action actions =>
      dsimp only
      cases thrown with
      | true => exact ⟨r, h.leaveFrame rest _ hview⟩
      | false =>
        have hpopped : Inv { s with
            frames := Function.update s.frames i (⟨actions, t⟩ :: rest) } r :=
          h.congr [] (by simp) (by simp) (by simp) rfl rfl rfl
        rw [if_neg (by simp)]
        cases action with
        | prompt => exact ⟨r, hpopped.enterPrompt slash hview⟩
        | run =>
          have hidle : s.isIdle = true := by
            simpa [orderly, startsRun, startsCompaction, hphase, hframes] using horderly
          exact hpopped.startRun hidle hview

theorem postRun {k : Nat} {next : PostRun}
    (hview : s.views i = { operation := some (.run k) })
    (hstep : s.postRun i k next = some s') : ∃ r', Inv s' r' := by
  have hrun : s.activeRun = none := h.activeRun_of_between (by rw [hview]) (by rw [hview])
  have hopen := h.exclusive.quiet hrun
  cases next with
  | leave thrown =>
    cases hstep
    exact h.endRun thrown hview
  | again =>
    unfold State.postRun at hstep
    rw [hrun] at hstep
    dsimp only at hstep
    split at hstep
    · cases hstep
    · cases hstep
      refine ⟨r, h.setAgent (i := i) (k := k) hopen (by simp [hview, hrun])
        (by simp [Phase.view]) fun j hj => ?_⟩
      simp [hrun, Ne.symm hj]
  | compaction =>
    cases hstep
    exact ⟨r, h.startAuto (by rw [hview]) fun c => by rw [hview]; rfl⟩
  | exhausted =>
    cases hstep
    exact ⟨r, h.congr [.compactionEnd none] rfl (by simp [Event.Neutral, Reading.after])
      (by simp [Event.other]) rfl rfl rfl⟩
  | boundary drafts =>
    cases hstep
    have hdrafts : Inv { s with log := s.log ++ List.replicate drafts Event.custom } r :=
      h.append hopen (.inr rfl) drafts
    exact ⟨r, hdrafts.flushCustom hopen⟩

theorem agentStep {k : Nat} {act : Act}
    (hview : s.views i = { operation := some (.run k), atAgent := true })
    (hstep : s.agentStep i k act = some s') : ∃ r', Inv s' r' := by
  have hrun : s.activeRun = some i := (h.exclusive.agent i).mpr (by rw [hview])
  unfold State.agentStep at hstep
  split at hstep
  · split at hstep
    · cases hstep
      exact ⟨_, h.setCalls hrun rfl rfl⟩
    · cases hstep
  · split at hstep
    · cases hstep
    · cases hstep
      rw [← h.exclusive.openCalls]
      exact ⟨_, h.setCalls hrun rfl rfl⟩
  · split at hstep
    case isTrue hopen =>
      cases hstep
      exact ⟨r, h.append hopen (.inr rfl) 1⟩
    case isFalse => cases hstep
  · split at hstep
    case isTrue hopen =>
      cases hstep
      exact ⟨r, h.flushCustom hopen⟩
    case isFalse => cases hstep
  · cases hstep
    exact ⟨_, h.setCalls hrun rfl rfl⟩
  · split at hstep
    case isTrue hopen =>
      cases hstep
      refine ⟨r, h.setAgent (i := i) (k := k) hopen (by simp [hview, hrun])
        (by simp [Phase.view]) fun j hj => ?_⟩
      simp [hrun, Ne.symm hj]
    case isFalse => cases hstep
  · cases hstep

/-- **An orderly step keeps the invariant.** -/
theorem step (horderly : orderly s label = true)
    (hstep : Calls.step s label = some s') : ∃ r', Inv s' r' := by
  obtain ⟨i, act⟩ := label
  have hview : ∀ p, s.phase i = p → s.views i = p.view := fun p hp => by
    rw [State.views, hp]
  unfold Calls.step at hstep
  dsimp only at hstep
  split at hstep
  case h_1 hphase =>
    cases hstep
    exact ⟨r, h.enterPrompt _ (hview _ hphase)⟩
  case h_2 hphase =>
    cases hstep
    split
    · exact ⟨r, h.moveTo (hview _ hphase).symm⟩
    · exact ⟨r, h.enterInput (hview _ hphase)⟩
  case h_3 hphase =>
    cases hstep
    split
    · exact ⟨r, h.moveTo (hview _ hphase).symm⟩
    · exact ⟨r, h.afterInput _ _ (hview _ hphase)⟩
  case h_4 found hphase =>
    cases hstep
    cases found with
    | none => exact ⟨r, h.moveTo (hview _ hphase).symm⟩
    | some check => exact ⟨r, h.check check (hview _ hphase)⟩
  case h_5 hphase =>
    cases hstep
    have hv := hview _ hphase
    exact ⟨r, h.autoDone _ (by rw [hv]; rfl) (by rw [hv]; rfl) (by rw [hv]; rfl)⟩
  case h_6 hphase =>
    cases hstep
    have hv := hview _ hphase
    exact ⟨r, h.autoDone _ (by rw [hv]; rfl) (by rw [hv]; rfl) (by rw [hv]; rfl)⟩
  case h_7 hphase =>
    cases hstep
    exact ⟨r, (h.moveTo (p := .hooks) (hview _ hphase).symm).clearAuto _⟩
  case h_8 run k hphase =>
    cases hstep
    exact ⟨r, (h.moveTo (p := .run run .between) (hview _ hphase).symm).clearAuto _⟩
  case h_9 ok hphase =>
    cases hstep
    cases ok with
    | true =>
      have hidle : s.isIdle = true := by
        simpa [orderly, startsRun, startsCompaction, hphase] using horderly
      exact h.startRun hidle (hview _ hphase)
    | false => exact ⟨r, h.moveTo (hview _ hphase).symm⟩
  case h_10 hphase =>
    cases hstep
    exact h.sendCustomMessage _ _ hphase horderly
  case h_11 hphase =>
    cases hstep
    exact ⟨r, h.recordBashResult (hview _ hphase)⟩
  case h_12 hphase =>
    have hrejected := h.exclusive.accepted i
    rw [hview _ hphase] at hrejected
    cases hrejected
  case h_13 hphase => exact h.postRun (hview _ hphase) hstep
  case h_14 hphase =>
    cases hstep
    exact ⟨r, h.settle _ (hview _ hphase)⟩
  case h_15 hphase =>
    cases hstep
    exact h.nextAction _ _ hphase horderly
  case h_16 hphase =>
    cases hstep
    exact ⟨r, h.wait _ (hview _ hphase)⟩
  case h_17 hphase =>
    cases hstep
    have hquiet : s.isIdle = true ∧ s.reporters = [] := by
      simpa [orderly, startsRun, startsCompaction, hphase] using horderly
    exact h.startCompaction hquiet.1 hquiet.2 (hview _ hphase)
  case h_18 hphase =>
    cases hstep
    exact ⟨r, h.moveTo (hview _ hphase).symm⟩
  case h_19 hphase =>
    cases hstep
    exact ⟨r, h.moveTo (hview _ hphase).symm⟩
  case h_20 hphase =>
    cases hstep
    exact h.endSummary _ (hview _ hphase)
  case h_21 hphase =>
    cases hstep
    exact h.endCompaction (hview _ hphase)
  case h_22 hphase =>
    cases hstep
    exact ⟨r, h.reported (hview _ hphase)⟩
  case h_23 hphase =>
    cases hstep
    exact h.navigateTree _ (hview _ hphase)
  case h_24 hphase =>
    cases hstep
    exact ⟨_, (h.endNavigation (hview _ hphase)).resolveIdle⟩
  case h_25 hphase => exact h.agentStep (hview _ hphase) hstep
  case h_26 => cases hstep

end

theorem initial : Inv .initial ⟨none, 0⟩ := by
  have hviews : ∀ j, State.initial.views j = {} := fun _ => rfl
  refine ⟨⟨rfl, rfl, rfl, rfl, ?_, ?_, ?_, rfl, fun _ => rfl, fun _ => rfl⟩, ⟨?_, ?_⟩,
    fun k => .unborn rfl ?_, fun k => .unborn rfl ?_ ?_⟩
  · nofun
  · nofun
  · intro i
    rw [hviews]
    simp [State.initial]
  · intro i hi
    cases hi
  · nofun
  all_goals
    intro i
    simp [hviews]

/-- **What the invariant is for.** -/
theorem proper (h : Inv s r) : s.Proper where
  exclusive := ⟨r, h.exclusive.read, h.exclusive.isIdle_of_some⟩
  located := fun i op hop => ⟨r, h.exclusive.read, h.exclusive.owner i op hop⟩
  compactions := by
    intro k hk
    have hmem : Event.compactionStart k ∈ s.log.filter (Event.ofCompaction k) :=
      List.mem_filter.mpr ⟨hk, by simp [Event.ofCompaction]⟩
    cases h.compactions k with
    | unborn hlog =>
      rw [hlog] at hmem
      cases hmem
    | working _ hlog i hi => exact .inr ⟨hlog, i, hi⟩
    | past _ hlog => exact .inl hlog
  runs := by
    intro k hk
    have hmem : Event.started (.run k) ∈ s.log.filter (Event.ofRun k) :=
      List.mem_filter.mpr ⟨hk, by simp [Event.ofRun]⟩
    cases h.runs k with
    | unborn hlog =>
      rw [hlog] at hmem
      cases hmem
    | running _ hlog hrun => exact .inr (.inr ⟨hlog, hrun⟩)
    | settling _ hlog _ i hi => exact .inr (.inl ⟨hlog, i, hi⟩)
    | past _ hlog => exact .inl hlog

end Inv

/-- **Where every start finds the session idle, callers can rely on it.** -/
theorem calls_proper
    (h : Run (· = .initial) step (fun s label => orderly s label = true) s) : s.Proper := by
  have hinv : ∃ r, Inv s r := by
    refine h.invariant (p := fun s => ∃ r, Inv s r) ?_ ?_
    · rintro _ rfl
      exact ⟨_, .initial⟩
    · rintro s label s' ⟨r, hr⟩ horderly hstep
      exact hr.step horderly hstep
  obtain ⟨r, hr⟩ := hinv
  exact hr.proper

/-- The steps of a call of `prompt` up to its run. -/
def promptSteps (i : CallId) : List Label :=
  [⟨i, .prompt false⟩, ⟨i, .inputDone false true (.configured .none)⟩]

/-- A prompt with one tool call, a command that ends meanwhile, and a compaction
that fails. -/
def orderlyRun : List Label :=
  promptSteps 0 ++ [⟨0, .hooksDone true⟩, ⟨0, .assistant 1⟩, ⟨1, .recordBashResult⟩,
    ⟨2, .wait .compact⟩, ⟨0, .toolResult⟩, ⟨0, .turnEnd⟩, ⟨0, .agentEnd⟩,
    ⟨0, .postRun (.leave false)⟩, ⟨0, .settled⟩, ⟨2, .resume⟩, ⟨2, .compactDone false⟩,
    ⟨2, .compactReported⟩, ⟨0, .return false⟩]

theorem calls_proper_sample : (Run.afterAll step .initial orderlyRun).Proper :=
  calls_proper (.of_check (.init rfl) (by decide +kernel))

/-- Two prompts pass their checks before the first run starts. The second one
is rejected by the agent, and cleans up: a command that ends now is recorded
between the call of the first run and its result. -/
def crossedRun : List Label :=
  promptSteps 0 ++ promptSteps 1 ++ [⟨0, .hooksDone true⟩, ⟨0, .assistant 1⟩,
    ⟨1, .hooksDone true⟩, ⟨1, .rejected⟩, ⟨2, .recordBashResult⟩, ⟨0, .toolResult⟩]

/-- **Two prompts at once** break what callers rely on. -/
theorem calls_improper : ∃ s, Run (· = .initial) step (fun _ _ => True) s ∧ ¬ s.Proper := by
  refine ⟨Run.afterAll step .initial crossedRun, .of_check (.init rfl) (by decide +kernel),
    fun h => ?_⟩
  obtain ⟨r, hread, -⟩ := h.exclusive
  have hnone : read (Run.afterAll step .initial crossedRun).log = none := by decide +kernel
  rw [hnone] at hread
  cases hread

end ReflectivePi.Calls
