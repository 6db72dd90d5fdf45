import ReflectivePi.Calls.Exclusive

/-!
# Calls — Steps

What the parts of a step do to the invariant, from the change of one field to
the start and the end of each operation.
-/

namespace ReflectivePi.Calls

open List

variable {s s' : State} {r r' : Reading} {i : CallId} {p : Phase} {k : Nat}

/-- The invariant of a session, with the reading of its log. -/
structure Inv (s : State) (r : Reading) : Prop where
  exclusive : Exclusive s r
  reports : Reports s
  compactions : Compactions s
  runs : Runs s

/-- An event about no compaction and no run. -/
def Event.other : Event → Bool
  | .started (.run _) | .ended (.run _) | .settled _ | .compactionStart _
  | .compactionEnd (some _) => false
  | _ => true

theorem Event.ofCompaction_other {e : Event} (h : e.other = true) (k : Nat) :
    e.ofCompaction k = false := by
  cases e with
  | compactionEnd j =>
    cases j with
    | none => simp [Event.ofCompaction]
    | some j => cases h
  | compactionStart j => cases h
  | _ => rfl

theorem Event.ofRun_other {e : Event} (h : e.other = true) (k : Nat) : e.ofRun k = false := by
  cases e with
  | started op => cases op <;> first | rfl | cases h
  | ended op => cases op <;> first | rfl | cases h
  | settled j => cases h
  | _ => rfl

/-- The fields that say what is in progress. -/
def State.core (s : State) :=
  (s.isAgentRunActive, s.manualCompaction, s.branchSummary, s.activeRun, s.openCalls, s.reporters)

namespace State

/-- A run that the agent accepts, up to its first wait. -/
def openRun (s : State) (i : CallId) : State :=
  { (s.emit (.started (.run s.next))).moveTo i (.run s.next .agent) with
    agentRunAbortRequested := false
    isAgentRunActive := true
    next := s.next + 1
    activeRun := some i }

theorem startRun_eq (h : s.activeRun = none) : s.startRun i = s.openRun i := by
  unfold startRun openRun
  simp [h, emit, moveTo]

/-- The end of a run, before what was held back is appended. -/
def closeRun (s : State) (i : CallId) (k : Nat) (thrown : Bool) : State :=
  { (s.emit (.ended (.run k))).moveTo i (.settling k thrown) with
    isAgentRunActive := false
    isEmittingAgentSettled := true }

theorem reporters_of_resolveIdle (s : State) (reporters : List CallId) :
    ({ s.resolveIdle with reporters } : State) = ({ s with reporters } : State).resolveIdle := by
  unfold resolveIdle
  have hsame : ({ s with reporters } : State).isIdle = s.isIdle := rfl
  rw [hsame]
  split <;> rfl

theorem views_openRun (s : State) (i j : CallId) :
    (s.openRun i).views j
      = if j = i then { operation := some (.run s.next), atAgent := true } else s.views j :=
  views_moveTo (s.emit (.started (.run s.next))) i j _

theorem views_closeRun (s : State) (i j : CallId) (k : Nat) (thrown : Bool) :
    (s.closeRun i k thrown).views j = if j = i then { settles := some k } else s.views j :=
  views_moveTo (s.emit (.ended (.run k))) i j _

theorem view_kept {α : Type} (f : View → α) {v w : View} (hview : s.views i = v)
    (hsame : f w = f v) (j : CallId) : f (if j = i then w else s.views j) = f (s.views j) := by
  split
  next hj => rw [hj, hview, hsame]
  next => rfl

end State

namespace Inv

/-! ## What changes nothing -/

/-- One call goes on within its operation. -/
theorem turn (h : Inv s r) {l : List Event} (hlog : s'.log = s.log ++ l)
    (hneutral : ∀ e ∈ l, e.Neutral r) (hcore : s'.core = s.core)
    (hviews : ∀ j, (s'.views j).operation = (s.views j).operation ∧
      (s'.views j).atAgent = (s.views j).atAgent ∧
      (s'.views j).rejected = (s.views j).rejected ∧ (s'.views j).reports = (s.views j).reports)
    (hcompactions : Compactions s') (hruns : Runs s') : Inv s' r := by
  simp only [State.core, Prod.mk.injEq] at hcore
  obtain ⟨hactive, hmanual, hbranch, hrun, hopen, hreporters⟩ := hcore
  refine ⟨h.exclusive.congr ?_ hactive (by rw [hmanual]) hbranch hrun hopen
      (fun j => (hviews j).1) (fun j => (hviews j).2.1) (fun j => (hviews j).2.2.1),
    h.reports.congr hreporters (fun _ hnone => hmanual.trans hnone)
      (fun j hj => (hviews j).2.2.2 ▸ hj), hcompactions, hruns⟩
  rw [hlog]
  exact read_neutral h.exclusive.read hneutral

theorem congr (h : Inv s r) (events : List Event) (hlog : s'.log = s.log ++ events)
    (hneutral : ∀ e ∈ events, e.Neutral r) (hother : ∀ e ∈ events, e.other = true)
    (hcore : s'.core = s.core) (hnext : s'.next = s.next) (hviews : s'.views = s.views) :
    Inv s' r := by
  refine h.turn hlog hneutral hcore (fun j => ?_)
    (h.compactions.congr hlog (fun e he => e.ofCompaction_other (hother e he)) ?_ (by omega))
    (h.runs.congr hlog (fun e he => e.ofRun_other (hother e he)) ?_ ?_ (by omega))
  all_goals simp [hviews]

theorem moveTo (h : Inv s r) (hview : p.view = s.views i) : Inv (s.moveTo i p) r := by
  refine h.congr [] (by simp [State.moveTo]) (by simp) (by simp) rfl rfl ?_
  funext j
  rw [State.views_moveTo]
  split
  case isTrue hj => rw [hj, hview]
  case isFalse => rfl

theorem resolveIdle (h : Inv s r) : Inv s.resolveIdle r := by
  obtain ⟨events, hlog, hevents⟩ := s.log_resolveIdle
  refine h.congr events hlog (fun e he => ?_) (fun e he => ?_) ?_ (by simp) s.views_resolveIdle
  · obtain ⟨rfl, hidle⟩ := hevents e he
    simp [Event.Neutral, Reading.after, h.exclusive.none_of_idle hidle]
  · rw [(hevents e he).1]
    rfl
  · simp [State.core]

theorem append (h : Inv s r) (hopen : s.openCalls = 0) {e : Event}
    (he : e = .bash ∨ e = .custom) (n : Nat) {pendingBash pendingCustom : Nat} :
    Inv { s with
      log := s.log ++ List.replicate n e
      pendingBashMessages := pendingBash
      pendingCustomMessages := pendingCustom } r := by
  refine h.congr (List.replicate n e) rfl (fun x hx => ?_) (fun x hx => ?_) rfl rfl rfl
  all_goals
    obtain rfl := (eq_of_mem_replicate hx)
  · have hzero : r.openCalls = 0 := h.exclusive.openCalls.trans hopen
    rcases he with rfl | rfl <;> simp [Event.Neutral, Reading.after, hzero]
  · rcases he with rfl | rfl <;> rfl

theorem flushBash (h : Inv s r) (hopen : s.openCalls = 0) : Inv s.flushBash r :=
  h.append hopen (.inl rfl) _

theorem flushCustom (h : Inv s r) (hopen : s.openCalls = 0) : Inv s.flushCustom r :=
  h.append hopen (.inr rfl) _

theorem openCalls_of_inactive (h : Inv s r) (hinactive : s.isAgentRunActive = false) :
    s.openCalls = 0 := by
  refine h.exclusive.quiet ?_
  cases hrun : s.activeRun with
  | none => rfl
  | some j =>
    obtain ⟨k, hop⟩ := Phase.operation_of_atAgent ((h.exclusive.agent j).mp hrun)
    have hprogress := h.exclusive.owner j _ hop
    rw [h.exclusive.active] at hinactive
    simp [Reading.inRun, hprogress] at hinactive

theorem activeRun_of_between (h : Inv s r) (hop : (s.views i).operation = some (.run k))
    (hagent : (s.views i).atAgent = false) : s.activeRun = none := by
  cases hrun : s.activeRun with
  | none => rfl
  | some j =>
    have hat := (h.exclusive.agent j).mp hrun
    obtain ⟨k', hop'⟩ := Phase.operation_of_atAgent hat
    have hsame := (h.exclusive.owner j _ hop').symm.trans (h.exclusive.owner i _ hop)
    obtain rfl := h.exclusive.unique j i _ (hsame ▸ hop') hop
    rw [hagent] at hat
    cases hat

theorem startRun (h : Inv s r) (hidle : s.isIdle = true) (hview : s.views i = {}) :
    ∃ r', Inv (s.startRun i) r' := by
  have hnone := h.exclusive.none_of_idle hidle
  have hrun := h.exclusive.activeRun_of_none hnone
  have hmanual : s.manualCompaction.isSome = false := by
    rw [h.exclusive.manual]
    simp [Reading.inCompaction, hnone]
  have hbranch : s.branchSummary.isSome = false := by
    rw [h.exclusive.branch]
    simp [Reading.inNavigation, hnone]
  have hat : ∀ j, (s.views j).atAgent = false := by
    intro j
    cases hj : (s.views j).atAgent with
    | false => rfl
    | true =>
      have hsome := (h.exclusive.agent j).mpr hj
      rw [hrun] at hsome
      cases hsome
  rw [State.startRun_eq hrun]
  refine ⟨{ r with inProgress := some (.run s.next) }, ?_, ?_, ?_, ?_⟩
  · refine h.exclusive.start (i := i) hnone ?_ rfl hmanual hbranch rfl
      (fun j => ?_) (fun j => ?_) (fun j => ?_)
    · show read (s.log ++ [_]) = _
      rw [read_append h.exclusive.read]
      simp [Reading.after, hnone]
    all_goals rw [State.views_openRun]
    · split <;> rfl
    · exact State.view_kept _ hview (by rfl) j
    · by_cases hj : j = i
      · simp [hj, State.openRun]
      · simp [hj, hat j, Ne.symm hj, State.openRun]
  · refine h.reports.congr rfl (fun _ hnone => hnone) fun j hj => ?_
    rw [State.views_openRun] at hj
    split at hj
    · cases hj
    · exact hj
  · refine h.compactions.congr (l := [.started (.run s.next)]) rfl ?_ (fun j => ?_) (Nat.le_succ _)
    · intro e he k
      rw [List.mem_singleton.mp he]
      rfl
    · rw [State.views_openRun]
      exact State.view_kept _ hview (by rfl) j
  · refine h.runs.start (i := i) (by rw [hview]) rfl (fun j => ?_) (fun j => ?_) rfl
    all_goals rw [State.views_openRun]
    · split <;> rfl
    · exact State.view_kept _ hview (by rfl) j

theorem endRun (h : Inv s r) (thrown : Bool) (hview : s.views i = { operation := some (.run k) }) :
    ∃ r', Inv (s.endRun i k thrown) r' := by
  have hop : (s.views i).operation = some (.run k) := by rw [hview]
  have hprogress := h.exclusive.owner i _ hop
  have hrun := h.activeRun_of_between hop (by rw [hview])
  have hopen := h.exclusive.quiet hrun
  have hmanual : s.manualCompaction = none := by
    have hnone := h.exclusive.manual
    simpa [Reading.inCompaction, hprogress] using hnone
  have hbranch : s.branchSummary = none := by
    have hnone := h.exclusive.branch
    simpa [Reading.inNavigation, hprogress] using hnone
  have hclosed : Inv (s.closeRun i k thrown) { r with inProgress := none } := by
    refine ⟨?_, ?_, ?_, ?_⟩
    · refine h.exclusive.finish hop ?_ rfl hmanual hbranch rfl rfl
        (fun j => ?_) (fun j => ?_) (fun j => ?_)
      · show read (s.log ++ [_]) = _
        rw [read_append h.exclusive.read]
        simp [Reading.after, hprogress]
      all_goals rw [State.views_closeRun]
      · split <;> rfl
      · exact State.view_kept _ hview (by rfl) j
      · exact State.view_kept _ hview (by rfl) j
    · refine h.reports.congr rfl (fun _ hnone => hnone) fun j hj => ?_
      rw [State.views_closeRun] at hj
      split at hj
      · cases hj
      · exact hj
    · refine h.compactions.congr (l := [.ended (.run k)]) rfl ?_ (fun j => ?_) (Nat.le_refl _)
      · intro e he k
        rw [List.mem_singleton.mp he]
        rfl
      · rw [State.views_closeRun]
        exact State.view_kept _ hview (by rfl) j
    · refine h.runs.finish (l := []) hop
        (fun j hj => h.exclusive.unique j i _ hj hop) (by rw [hview]) rfl (by simp)
        (fun j => ?_) (fun j => ?_) rfl
      all_goals rw [State.views_closeRun]
      · split <;> rfl
      · split <;> rfl
  exact ⟨_, (hclosed.flushBash hopen).flushCustom hopen⟩

theorem settle (h : Inv s r) (thrown : Bool) (hview : s.views i = { settles := some k }) :
    Inv (s.settle i k thrown) r := by
  have hreturned : ∀ s' : State, s'.log = s.log ++ [.settled k] →
      s'.core = s.core → s'.next = s.next →
      (∀ j, s'.views j = if j = i then {} else s.views j) → Inv s' r := by
    intro s' hlog hcore hnext hviews
    have hsame : ∀ j, (s'.views j).operation = (s.views j).operation ∧
        (s'.views j).atAgent = (s.views j).atAgent ∧
        (s'.views j).rejected = (s.views j).rejected ∧
        (s'.views j).reports = (s.views j).reports ∧
        (s'.views j).compacts = (s.views j).compacts := by
      intro j
      rw [hviews]
      split
      case isTrue hj => simp [hj, hview]
      case isFalse => simp
    refine h.turn hlog (by simp [Event.Neutral, Reading.after]) hcore
      (fun j => ⟨(hsame j).1, (hsame j).2.1, (hsame j).2.2.1, (hsame j).2.2.2.1⟩)
      (h.compactions.congr hlog (by simp [Event.ofCompaction])
        (fun j => (hsame j).2.2.2.2) (by omega))
      (h.runs.settle (l := []) (i := i) (by rw [hview]) hlog (by simp)
        (fun j => (hsame j).1) (fun j => ?_) hnext)
    rw [hviews]
    split <;> rfl
  unfold State.settle
  dsimp only
  split
  · refine Inv.resolveIdle (hreturned _ rfl rfl rfl fun j => ?_)
    exact State.views_moveTo (s.emit (.settled k)) i j _
  · refine hreturned _ rfl rfl rfl fun j => ?_
    exact State.views_moveTo (s.emit (.settled k)) i j _

theorem startAuto (h : Inv s r) {place : Nat → Phase} (hfree : (s.views i).compacts = none)
    (hview : ∀ c, (place c).view = { s.views i with compacts := some c }) :
    Inv (s.startAuto i place) r := by
  have hviews : ∀ j, (s.startAuto i place).views j
      = if j = i then { s.views i with compacts := some s.next } else s.views j := by
    intro j
    rw [← hview]
    exact State.views_moveTo (s.emit (.compactionStart s.next)) i j _
  refine h.turn (l := [.compactionStart s.next]) rfl
    (by simp [Event.Neutral, Reading.after]) rfl (fun j => ?_)
    (h.compactions.start (i := i) (l := []) hfree rfl (by simp) (fun j => ?_) rfl)
    (h.runs.congr (l := [.compactionStart s.next]) rfl (by simp [Event.ofRun])
      (fun j k => ?_) (fun j => ?_) (Nat.le_succ _))
  all_goals rw [hviews]
  · split
    case isTrue hj => simp [hj]
    case isFalse => simp
  · split <;> rfl
  · split
    case isTrue hj => simp [hj]
    case isFalse => rfl
  · split
    case isTrue hj => simp [hj]
    case isFalse => rfl

theorem clearAuto (h : Inv s r) (k : Nat) : Inv (s.clearAuto k) r := by
  unfold State.clearAuto
  split
  · exact Inv.resolveIdle (h.congr [] (by simp) (by simp) (by simp) rfl rfl rfl)
  · exact h.resolveIdle

theorem autoDone (h : Inv s r) (ok : Bool) {failed next : Phase}
    (hcompacts : (s.views i).compacts = some k)
    (hfailed : failed.view = { s.views i with compacts := none })
    (hnext : next.view = { s.views i with compacts := none }) :
    Inv (s.autoDone i k ok failed next) r := by
  have hended : ∀ p : Phase, p.view = { s.views i with compacts := none } →
      Inv ((s.emit (.compactionEnd (some k))).moveTo i p) r := by
    intro p hp
    have hviews : ∀ j, ((s.emit (.compactionEnd (some k))).moveTo i p).views j
        = if j = i then { s.views i with compacts := none } else s.views j := by
      intro j
      rw [← hp]
      exact State.views_moveTo (s.emit (.compactionEnd (some k))) i j _
    refine h.turn (l := [.compactionEnd (some k)]) rfl
      (by simp [Event.Neutral, Reading.after]) rfl (fun j => ?_)
      (h.compactions.finish (i := i) hcompacts (l := [.compactionEnd (some k)]) rfl
        (fun j => ?_) (fun j => ?_) rfl)
      (h.runs.congr (l := [.compactionEnd (some k)]) rfl (by simp [Event.ofRun])
        (fun j k => ?_) (fun j => ?_) (Nat.le_refl _))
    · rw [hviews]
      split
      case isTrue hj => simp [hj]
      case isFalse => simp
    · by_cases hj : j = k
      · simp [hj, Event.ofCompaction]
      · simp [hj, Event.ofCompaction, Ne.symm hj]
    all_goals rw [hviews]
    · split <;> rfl
    · split
      case isTrue hj => simp [hj]
      case isFalse => rfl
    · split
      case isTrue hj => simp [hj]
      case isFalse => rfl
  unfold State.autoDone
  split
  · exact (hended next hnext).clearAuto k
  · exact hended failed hfailed

/-! ## Manual compactions -/

/-- **A manual compaction starts** in an idle session where no other one is
still reporting. -/
theorem startCompaction (h : Inv s r) (hidle : s.isIdle = true) (hreporters : s.reporters = [])
    (hview : s.views i = {}) : ∃ r', Inv (s.startCompaction i) r' := by
  have hnone := h.exclusive.none_of_idle hidle
  have hactive : s.isAgentRunActive = false := by
    rw [h.exclusive.active]
    simp [Reading.inRun, hnone]
  have hbranch : s.branchSummary.isSome = false := by
    rw [h.exclusive.branch]
    simp [Reading.inNavigation, hnone]
  have hviews : ∀ j, (s.startCompaction i).views j
      = if j = i then { operation := some (.compaction s.next), compacts := some s.next }
        else s.views j :=
    fun j => State.views_moveTo _ i j _
  have hlog : (s.startCompaction i).log
      = s.log ++ [.compactionStart s.next, .started (.compaction s.next)] :=
    append_assoc _ _ _
  refine ⟨{ r with inProgress := some (.compaction s.next) }, ?_, ?_, ?_, ?_⟩
  · refine h.exclusive.start (i := i) hnone ?_ hactive rfl hbranch rfl
      (fun j => ?_) (fun j => ?_) (fun j => ?_)
    · rw [hlog, read_append h.exclusive.read]
      simp [Reading.after, hnone]
    all_goals rw [hviews]
    · split <;> rfl
    · exact State.view_kept _ hview (by rfl) j
    · exact (h.exclusive.agent j).trans (.of_eq
        (State.view_kept (fun v => v.atAgent = true) hview (by rfl) j).symm)
  · refine ⟨fun j hj => ?_, fun hne => absurd hreporters hne⟩
    rw [hviews] at hj
    split at hj
    · cases hj
    · exact h.reports.listed j hj
  · refine h.compactions.start (i := i) (by rw [hview]) hlog ?_ (fun j => ?_) rfl
    · simp [Event.ofCompaction]
    · rw [hviews]
      split <;> rfl
  · refine h.runs.congr hlog (by simp [Event.ofRun]) (fun j k => ?_) (fun j => ?_) (Nat.le_succ _)
    all_goals rw [hviews]
    · split
      case isTrue hj => simp [hj, hview]
      case isFalse => rfl
    · exact State.view_kept _ hview (by rfl) j

theorem clearManual (h : Inv s r) (hnone : s.manualCompaction = none) : Inv s.clearManual r := by
  refine Inv.resolveIdle (h.congr [] (by simp) (by simp) (by simp) ?_ rfl rfl)
  simp [State.core, hnone]

theorem manualCompaction_isSome (h : Inv s r)
    (hview : s.views i = { operation := some (.compaction k), compacts := some k }) :
    s.manualCompaction.isSome := by
  have hprogress := h.exclusive.owner i (.compaction k) (by rw [hview])
  rw [h.exclusive.manual]
  simp [Reading.inCompaction, hprogress]

/-- **A manual compaction ends**: its state is cleared, then the end is
emitted. -/
theorem closeCompaction (h : Inv s r) {b : Bool} (reporters : List CallId)
    (hview : s.views i = { operation := some (.compaction k), compacts := some k })
    (hp : p.view = { reports := b })
    (hlisted : ∀ j, j ∈ s.reporters ∨ (j = i ∧ b = true) → j ∈ reporters) :
    Inv { (((s.emit (.ended (.compaction k))).moveTo i p).clearManual).emit
        (.compactionEnd (some k)) with reporters } { r with inProgress := none } := by
  have hprogress := h.exclusive.owner i (.compaction k) (by rw [hview])
  have hactive : s.isAgentRunActive = false := by
    rw [h.exclusive.active]
    simp [Reading.inRun, hprogress]
  have hbranch : s.branchSummary = none := by
    have hnone := h.exclusive.branch
    simpa [Reading.inNavigation, hprogress] using hnone
  obtain ⟨cleared, hcleared⟩ : ∃ cleared : State, cleared
      = { (s.emit (.ended (.compaction k))).moveTo i p with manualCompaction := none } := ⟨_, rfl⟩
  have hviews : ∀ j, cleared.views j = if j = i then { reports := b } else s.views j := by
    intro j
    rw [hcleared, ← hp]
    exact State.views_moveTo (s.emit (.ended (.compaction k))) i j _
  have hexclusive : Exclusive cleared { r with inProgress := none } := by
    have hop : (s.views i).operation = some (.compaction k) := by rw [hview]
    refine h.exclusive.finish hop ?_ (by rw [hcleared]; exact hactive) (by rw [hcleared])
      (by rw [hcleared]; exact hbranch) (by rw [hcleared]; rfl) (by rw [hcleared]; rfl)
      (fun j => ?_) (fun j => ?_) (fun j => ?_)
    · rw [hcleared]
      show read (s.log ++ [_]) = _
      rw [read_append h.exclusive.read]
      simp [Reading.after, hprogress]
    all_goals rw [hviews]
    · split <;> rfl
    · exact State.view_kept _ hview (by rfl) j
    · exact State.view_kept _ hview (by rfl) j
  obtain ⟨events, hlog, hevents⟩ := cleared.log_resolveIdle
  have hend : ({ (((s.emit (.ended (.compaction k))).moveTo i p).clearManual).emit
        (.compactionEnd (some k)) with reporters } : State)
      = { cleared.resolveIdle.emit (.compactionEnd (some k)) with reporters } := by
    rw [hcleared]
    rfl
  rw [hend]
  have hviews' : ∀ j, ({ cleared.resolveIdle.emit (.compactionEnd (some k)) with
      reporters } : State).views j = if j = i then { reports := b } else s.views j := by
    intro j
    rw [← hviews]
    exact congrFun cleared.views_resolveIdle j
  have hlog' : ({ cleared.resolveIdle.emit (.compactionEnd (some k)) with
      reporters } : State).log
        = s.log ++ .ended (.compaction k) :: (events ++ [.compactionEnd (some k)]) := by
    show cleared.resolveIdle.log ++ [_] = _
    rw [hlog, hcleared]
    show ((s.log ++ [_]) ++ events) ++ [_] = _
    simp
  have hidle : ∀ e ∈ events, e = .idle := fun e he => (hevents e he).1
  have hresolved := hexclusive.resolveIdle
  refine ⟨hresolved.congr ?_ rfl rfl rfl rfl rfl (fun _ => rfl) (fun _ => rfl) fun _ => rfl,
    ?_, ?_, ?_⟩
  · show read (cleared.resolveIdle.log ++ [_]) = _
    rw [read_append hresolved.read]
    rfl
  · refine ⟨fun j hj => ?_, fun _ => ?_⟩
    · rw [hviews'] at hj
      refine hlisted j ?_
      split at hj
      case isTrue hji => exact .inr ⟨hji, hj⟩
      case isFalse => exact .inl (h.reports.listed j hj)
    · show cleared.resolveIdle.manualCompaction = none
      rw [State.manualCompaction_resolveIdle, hcleared]
  · refine h.compactions.finish (i := i) (k := k) (by rw [hview]) hlog' (fun j => ?_)
      (fun j => ?_) ?_
    · have hnone : events.filter (Event.ofCompaction j) = [] :=
        List.filter_eq_nil_iff.mpr fun e he => by simp [hidle e he, Event.ofCompaction]
      by_cases hj : j = k
      · simp [hj, hj ▸ hnone, Event.ofCompaction]
      · simp [hj, hnone, Event.ofCompaction, Ne.symm hj]
    · rw [hviews']
      split <;> rfl
    · show cleared.resolveIdle.next = s.next
      rw [State.next_resolveIdle, hcleared]
      rfl
  · refine h.runs.congr hlog' ?_ (fun j k' => ?_) (fun j => ?_) ?_
    · intro e he k'
      simp only [mem_cons, mem_append, not_mem_nil, or_false] at he
      rcases he with rfl | he | rfl
      · rfl
      · rw [hidle e he]
        rfl
      · rfl
    · rw [hviews']
      split
      case isTrue hj => simp [hj, hview]
      case isFalse => rfl
    · rw [hviews']
      exact State.view_kept _ hview (by rfl) j
    · show s.next ≤ cleared.resolveIdle.next
      rw [State.next_resolveIdle, hcleared]
      exact Nat.le_refl _

theorem endSummary (h : Inv s r) (ok : Bool)
    (hview : s.views i = { operation := some (.compaction k), compacts := some k }) :
    ∃ r', Inv (s.endSummary i k ok) r' := by
  have hsome := h.manualCompaction_isSome hview
  unfold State.endSummary
  rw [if_neg (by rw [Option.isNone_iff_eq_none]; exact fun hc => by simp [hc] at hsome)]
  split
  · exact ⟨r, h.moveTo hview.symm⟩
  · refine ⟨_, h.closeCompaction (b := true) (i :: s.reporters) hview rfl fun j hj => ?_⟩
    rcases hj with hj | ⟨rfl, -⟩
    · exact mem_cons_of_mem _ hj
    · simp

theorem endCompaction (h : Inv s r)
    (hview : s.views i = { operation := some (.compaction k), compacts := some k }) :
    ∃ r', Inv (s.endCompaction i k) r' := by
  have hclosed : Inv ((((s.emit (.ended (.compaction k))).moveTo i .done).clearManual).emit
      (.compactionEnd (some k))) { r with inProgress := none } := by
    have hclose := h.closeCompaction (b := false) s.reporters
      (p := .done) hview rfl fun j hj => by simpa using hj
    have hsame : (((s.emit (.ended (.compaction k))).moveTo i .done).clearManual).reporters
        = s.reporters := by
      simp [State.clearManual, State.emit, State.moveTo]
    rw [← hsame] at hclose
    exact hclose
  refine ⟨_, hclosed.clearManual ?_⟩
  show (((s.emit (.ended (.compaction k))).moveTo i .done).clearManual).manualCompaction = none
  simp [State.clearManual]

theorem reported (h : Inv s r) (hview : s.views i = { reports := true }) :
    Inv { (s.moveTo i .done).clearManual with reporters := s.reporters.erase i } r := by
  have hlisted := h.reports.listed i (by rw [hview])
  have hnone := h.reports.cleared (ne_nil_of_mem hlisted)
  have hviews : ∀ j, ({ s.moveTo i .done with reporters := s.reporters.erase i } : State).views j
      = if j = i then {} else s.views j := fun j => State.views_moveTo s i j _
  have hdone : Inv { s.moveTo i .done with reporters := s.reporters.erase i } r := by
    refine ⟨h.exclusive.congr h.exclusive.read rfl rfl rfl rfl rfl (fun j => ?_)
        (fun j => ?_) (fun j => ?_),
      ⟨fun j hj => ?_, fun _ => hnone⟩,
      h.compactions.congr (l := []) (by simp [State.moveTo]) (by simp) (fun j => ?_)
        (Nat.le_refl _),
      h.runs.congr (l := []) (by simp [State.moveTo]) (by simp) (fun j k => ?_)
        (fun j => ?_) (Nat.le_refl _)⟩
    case refine_4 =>
      rw [hviews] at hj
      split at hj
      · cases hj
      case isFalse hji =>
        exact (mem_erase_of_ne hji).mpr (h.reports.listed j hj)
    all_goals
      rw [hviews]
      split
      case isTrue hj => simp [hj, hview]
      case isFalse => rfl
  have hend : ({ (s.moveTo i .done).clearManual with reporters := s.reporters.erase i } : State)
      = ({ s.moveTo i .done with reporters := s.reporters.erase i } : State).clearManual :=
    State.reporters_of_resolveIdle _ _
  rw [hend]
  exact hdone.clearManual hnone

/-- **A navigation starts** only in an idle session: it looks itself. -/
theorem navigateTree (h : Inv s r) (accepted : Bool) (hview : s.views i = {}) :
    ∃ r', Inv (s.navigateTree i accepted) r' := by
  unfold State.navigateTree
  split
  · exact ⟨r, h.moveTo hview.symm⟩
  case isFalse hgo =>
    simp only [Bool.or_eq_true, Bool.not_eq_true', not_or, Bool.not_eq_true] at hgo
    obtain ⟨⟨hactive, hcompacting⟩, -⟩ := hgo
    have hidle : s.isIdle = true := by
      unfold State.isIdle
      rw [hactive, hcompacting]
      rfl
    have hnone := h.exclusive.none_of_idle hidle
    have hmanual : s.manualCompaction.isSome = false := by
      rw [h.exclusive.manual]
      simp [Reading.inCompaction, hnone]
    have hviews : ∀ j, ({ (s.emit (.started (.navigation s.next))).moveTo i
          (.navigating s.next) with branchSummary := some s.next, next := s.next + 1 } :
          State).views j
        = if j = i then { operation := some (.navigation s.next) } else s.views j :=
      fun j => State.views_moveTo _ i j _
    refine ⟨{ r with inProgress := some (.navigation s.next) }, ?_, ?_, ?_, ?_⟩
    · refine h.exclusive.start (i := i) hnone ?_ hactive hmanual rfl rfl
        (fun j => ?_) (fun j => ?_) (fun j => ?_)
      · show read (s.log ++ [_]) = _
        rw [read_append h.exclusive.read]
        simp [Reading.after, hnone]
      all_goals rw [hviews]
      · split <;> rfl
      · exact State.view_kept _ hview (by rfl) j
      · exact (h.exclusive.agent j).trans (.of_eq
          (State.view_kept (fun v => v.atAgent = true) hview (by rfl) j).symm)
    · refine h.reports.congr rfl (fun _ hnone => hnone) fun j hj => ?_
      rw [hviews] at hj
      split at hj
      · cases hj
      · exact hj
    · refine h.compactions.congr (l := [.started (.navigation s.next)]) rfl
        (by simp [Event.ofCompaction]) (fun j => ?_) (Nat.le_succ _)
      rw [hviews]
      exact State.view_kept _ hview (by rfl) j
    · refine h.runs.congr (l := [.started (.navigation s.next)]) rfl
        (by simp [Event.ofRun]) (fun j k' => ?_) (fun j => ?_) (Nat.le_succ _)
      all_goals rw [hviews]
      · split
        case isTrue hj => simp [hj, hview]
        case isFalse => rfl
      · exact State.view_kept _ hview (by rfl) j

theorem endNavigation (h : Inv s r) (hview : s.views i = { operation := some (.navigation k) }) :
    Inv { (s.emit (.ended (.navigation k))).moveTo i .done with
      branchSummary := none } { r with inProgress := none } := by
  have hprogress := h.exclusive.owner i (.navigation k) (by rw [hview])
  have hactive : s.isAgentRunActive = false := by
    rw [h.exclusive.active]
    simp [Reading.inRun, hprogress]
  have hmanual : s.manualCompaction = none := by
    have hnone := h.exclusive.manual
    simpa [Reading.inCompaction, hprogress] using hnone
  have hviews : ∀ j, ({ (s.emit (.ended (.navigation k))).moveTo i .done with
        branchSummary := none } : State).views j = if j = i then {} else s.views j :=
    fun j => State.views_moveTo _ i j _
  refine ⟨?_, ?_, ?_, ?_⟩
  · have hop : (s.views i).operation = some (.navigation k) := by rw [hview]
    refine h.exclusive.finish hop ?_ hactive hmanual rfl rfl rfl (fun j => ?_) (fun j => ?_) (fun j => ?_)
    · show read (s.log ++ [_]) = _
      rw [read_append h.exclusive.read]
      simp [Reading.after, hprogress]
    all_goals rw [hviews]
    · split <;> rfl
    · exact State.view_kept _ hview (by rfl) j
    · exact State.view_kept _ hview (by rfl) j
  · refine h.reports.congr rfl (fun _ hnone => hnone) fun j hj => ?_
    rw [hviews] at hj
    split at hj
    · cases hj
    · exact hj
  · refine h.compactions.congr (l := [.ended (.navigation k)]) rfl
      (by simp [Event.ofCompaction]) (fun j => ?_) (Nat.le_refl _)
    rw [hviews]
    exact State.view_kept _ hview (by rfl) j
  · refine h.runs.congr (l := [.ended (.navigation k)]) rfl (by simp [Event.ofRun])
      (fun j k' => ?_) (fun j => ?_) (Nat.le_refl _)
    all_goals rw [hviews]
    · split
      case isTrue hj => simp [hj, hview]
      case isFalse => rfl
    · exact State.view_kept _ hview (by rfl) j

theorem setCalls (h : Inv s r) (hrun : s.activeRun = some i) {e : Event} {n : Nat}
    (hafter : r.after e = some { r with openCalls := n }) (hother : e.other = true) :
    Inv { s.emit e with openCalls := n } { r with openCalls := n } := by
  have hevents : ∀ x ∈ [e], x.other = true := by simpa using hother
  refine ⟨⟨?_, h.exclusive.active, h.exclusive.manual, h.exclusive.branch,
      h.exclusive.owner, h.exclusive.unique, h.exclusive.agent, rfl, fun hnone => ?_,
      h.exclusive.accepted⟩, h.reports.congr rfl (fun _ hnone => hnone) (fun _ hj => hj),
    h.compactions.congr (l := [e]) rfl
      (fun x hx => x.ofCompaction_other (hevents x hx)) (fun _ => rfl) (Nat.le_refl _),
    h.runs.congr (l := [e]) rfl (fun x hx => x.ofRun_other (hevents x hx))
      (fun _ _ => Iff.rfl) (fun _ => rfl) (Nat.le_refl _)⟩
  · show read (s.log ++ [_]) = _
    rw [read_append h.exclusive.read, foldlM_cons, hafter]
    rfl
  · exact absurd (hrun.symm.trans hnone) (by simp)

theorem setAgent (h : Inv s r) {p : Phase} {run : Option CallId} (hopen : s.openCalls = 0)
    (hview : s.views i = { operation := some (.run k), atAgent := s.activeRun = some i })
    (hp : p.view = { operation := some (.run k), atAgent := run = some i })
    (hothers : ∀ j, j ≠ i → (run = some j ↔ s.activeRun = some j)) :
    Inv { s.moveTo i p with activeRun := run } r := by
  have hviews : ∀ j, ({ s.moveTo i p with activeRun := run } : State).views j
      = if j = i then { operation := some (.run k), atAgent := run = some i }
        else s.views j := by
    intro j
    rw [← hp]
    exact State.views_moveTo s i j p
  have hsame : ∀ j, (({ s.moveTo i p with activeRun := run } : State).views j).operation
        = (s.views j).operation ∧
      (({ s.moveTo i p with activeRun := run } : State).views j).compacts = (s.views j).compacts ∧
      (({ s.moveTo i p with activeRun := run } : State).views j).settles = (s.views j).settles ∧
      (({ s.moveTo i p with activeRun := run } : State).views j).rejected = (s.views j).rejected ∧
      (({ s.moveTo i p with activeRun := run } : State).views j).reports = (s.views j).reports := by
    intro j
    rw [hviews]
    split
    case isTrue hj => simp [hj, hview]
    case isFalse => simp
  refine ⟨⟨h.exclusive.read, h.exclusive.active, h.exclusive.manual, h.exclusive.branch,
      fun j op hj => ?_, fun j j' op hj hj' => ?_, fun j => ?_, h.exclusive.openCalls,
      fun _ => hopen, fun j => ?_⟩, h.reports.congr rfl (fun _ hnone => hnone) (fun j hj => ?_),
    h.compactions.congr (l := []) (by simp [State.moveTo]) (by simp)
      (fun j => (hsame j).2.1) (Nat.le_refl _),
    h.runs.congr (l := []) (by simp [State.moveTo]) (by simp)
      (fun j k' => by rw [(hsame j).1]) (fun j => (hsame j).2.2.1) (Nat.le_refl _)⟩
  · rw [(hsame j).1] at hj
    exact h.exclusive.owner j op hj
  · rw [(hsame j).1] at hj
    rw [(hsame j').1] at hj'
    exact h.exclusive.unique j j' op hj hj'
  · rw [hviews]
    by_cases hj : j = i
    · simp [hj]
    · rw [if_neg hj, ← h.exclusive.agent j]
      exact hothers j hj
  · rw [(hsame j).2.2.2.1]
    exact h.exclusive.accepted j
  · rw [(hsame j).2.2.2.2] at hj
    exact hj

end Inv

end ReflectivePi.Calls
