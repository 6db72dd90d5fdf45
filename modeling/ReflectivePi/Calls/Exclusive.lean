import ReflectivePi.Calls.Log

/-!
# Calls — Exclusive

The invariant of a session whose operations start one at a time. Four groups,
each about its own fields: what is in progress and the flags that say so, the
compactions that are still reporting, the compactions and the runs with their
events. A group survives what leaves its own fields alone.
-/

namespace ReflectivePi.Calls

open Bool

variable {s s' : State} {r r' : Reading} {i : CallId} {p : Phase} {l : List Event}

namespace State

@[simp] theorem views_moveTo (s : State) (i j : CallId) (p : Phase) :
    (s.moveTo i p).views j = if j = i then p.view else s.views j := by
  by_cases h : j = i <;> simp [views, moveTo, h]

@[simp] theorem views_resolveIdle (s : State) : s.resolveIdle.views = s.views := by
  unfold resolveIdle
  split
  · funext j
    simp only [views]
    cases s.phase j <;> rfl
  · rfl

theorem log_resolveIdle (s : State) :
    ∃ events, s.resolveIdle.log = s.log ++ events ∧ ∀ e ∈ events, e = .idle ∧ s.isIdle = true := by
  unfold resolveIdle
  split
  case isTrue hidle => exact ⟨[.idle], rfl, by simp [hidle]⟩
  simp

@[simp] theorem isAgentRunActive_resolveIdle (s : State) :
    s.resolveIdle.isAgentRunActive = s.isAgentRunActive := by
  unfold resolveIdle
  split <;> rfl

@[simp] theorem manualCompaction_resolveIdle (s : State) :
    s.resolveIdle.manualCompaction = s.manualCompaction := by
  unfold resolveIdle
  split <;> rfl

@[simp] theorem branchSummary_resolveIdle (s : State) :
    s.resolveIdle.branchSummary = s.branchSummary := by
  unfold resolveIdle
  split <;> rfl

@[simp] theorem activeRun_resolveIdle (s : State) : s.resolveIdle.activeRun = s.activeRun := by
  unfold resolveIdle
  split <;> rfl

@[simp] theorem openCalls_resolveIdle (s : State) : s.resolveIdle.openCalls = s.openCalls := by
  unfold resolveIdle
  split <;> rfl

@[simp] theorem next_resolveIdle (s : State) : s.resolveIdle.next = s.next := by
  unfold resolveIdle
  split <;> rfl

@[simp] theorem reporters_resolveIdle (s : State) : s.resolveIdle.reporters = s.reporters := by
  unfold resolveIdle
  split <;> rfl

end State

namespace Reading

def inRun (r : Reading) : Bool :=
  match r.inProgress with
  | some (.run _) => true
  | _ => false

def inCompaction (r : Reading) : Bool :=
  match r.inProgress with
  | some (.compaction _) => true
  | _ => false

def inNavigation (r : Reading) : Bool :=
  match r.inProgress with
  | some (.navigation _) => true
  | _ => false

end Reading

/-! ## What is in progress -/

/-- The flags say what is in progress, and the calls that are in an operation
are the one call that is in it. -/
structure Exclusive (s : State) (r : Reading) : Prop where
  read : read s.log = some r
  active : s.isAgentRunActive = r.inRun
  manual : s.manualCompaction.isSome = r.inCompaction
  branch : s.branchSummary.isSome = r.inNavigation
  owner : ∀ i op, (s.views i).operation = some op → r.inProgress = some op
  unique : ∀ i j op, (s.views i).operation = some op → (s.views j).operation = some op → i = j
  agent : ∀ i, s.activeRun = some i ↔ (s.views i).atAgent = true
  openCalls : r.openCalls = s.openCalls
  quiet : s.activeRun = none → s.openCalls = 0
  accepted : ∀ i, (s.views i).rejected = false

theorem Phase.operation_of_atAgent {p : Phase} (h : p.view.atAgent = true) :
    ∃ k, p.view.operation = some (.run k) := by
  cases p with
  | run k phase =>
    cases phase with
    | auto c phase => cases phase <;> exact ⟨k, rfl⟩
    | _ => exact ⟨k, rfl⟩
  | autoBefore k phase => cases phase <;> cases h
  | _ => cases h

namespace Exclusive

section

variable (h : Exclusive s r)

include h

theorem congr (hread : Calls.read s'.log = some r)
    (hactive : s'.isAgentRunActive = s.isAgentRunActive)
    (hmanual : s'.manualCompaction.isSome = s.manualCompaction.isSome)
    (hbranch : s'.branchSummary = s.branchSummary) (hrun : s'.activeRun = s.activeRun)
    (hopen : s'.openCalls = s.openCalls)
    (hoperation : ∀ j, (s'.views j).operation = (s.views j).operation)
    (hagent : ∀ j, (s'.views j).atAgent = (s.views j).atAgent)
    (hrejected : ∀ j, (s'.views j).rejected = (s.views j).rejected) : Exclusive s' r where
  read := hread
  active := hactive.trans h.active
  manual := hmanual.trans h.manual
  branch := by rw [hbranch, h.branch]
  owner := by
    intro i op hop
    exact h.owner i op (by rw [← hoperation i, hop])
  unique := by
    intro i j op hi hj
    exact h.unique i j op (by rw [← hoperation i, hi]) (by rw [← hoperation j, hj])
  agent := by
    intro i
    rw [hrun, hagent]
    exact h.agent i
  openCalls := h.openCalls.trans hopen.symm
  quiet := by
    rw [hrun, hopen]
    exact h.quiet
  accepted := by
    intro i
    rw [hrejected]
    exact h.accepted i

theorem none_of_idle (hidle : s.isIdle = true) : r.inProgress = none := by
  unfold State.isIdle State.isCompacting at hidle
  simp only [and_eq_true, not_eq_true', or_eq_false_iff] at hidle
  obtain ⟨hactive, ⟨-, hmanual⟩, hbranch⟩ := hidle
  rw [h.active] at hactive
  rw [h.manual] at hmanual
  rw [h.branch] at hbranch
  unfold Reading.inRun at hactive
  unfold Reading.inCompaction at hmanual
  unfold Reading.inNavigation at hbranch
  cases hop : r.inProgress with
  | none => rfl
  | some op => cases op <;> simp [hop] at hactive hmanual hbranch

theorem isIdle_of_some (hsome : r.inProgress.isSome) : s.isIdle = false := by
  by_contra hidle
  rw [not_eq_false] at hidle
  rw [h.none_of_idle hidle] at hsome
  cases hsome

theorem resolveIdle : Exclusive s.resolveIdle r := by
  obtain ⟨events, hlog, hevents⟩ := s.log_resolveIdle
  refine h.congr ?_ (by simp) (by simp) (by simp) (by simp) (by simp) ?_ ?_ ?_
  · rw [hlog]
    refine read_neutral h.read fun e he => ?_
    obtain ⟨rfl, hidle⟩ := hevents e he
    simp [Event.Neutral, Reading.after, h.none_of_idle hidle]
  all_goals simp

theorem activeRun_of_none (hnone : r.inProgress = none) :
    s.activeRun = none := by
  cases hrun : s.activeRun with
  | none => rfl
  | some i =>
    have hat := (h.agent i).mp hrun
    rw [h.owner i _ (Phase.operation_of_atAgent hat).choose_spec] at hnone
    cases hnone

/-- **An operation starts** where none is in progress. -/
theorem start (hnone : r.inProgress = none) {op : Operation}
    (hread : Calls.read s'.log = some { r with inProgress := some op })
    (hactive : s'.isAgentRunActive = { r with inProgress := some op }.inRun)
    (hmanual : s'.manualCompaction.isSome = { r with inProgress := some op }.inCompaction)
    (hbranch : s'.branchSummary.isSome = { r with inProgress := some op }.inNavigation)
    (hopen : s'.openCalls = s.openCalls)
    (hoperation : ∀ j, (s'.views j).operation = if j = i then some op else (s.views j).operation)
    (hrejected : ∀ j, (s'.views j).rejected = (s.views j).rejected)
    (hagent : ∀ j, s'.activeRun = some j ↔ (s'.views j).atAgent = true) :
    Exclusive s' { r with inProgress := some op } where
  read := hread
  active := hactive
  manual := hmanual
  branch := hbranch
  owner := by
    intro j op' hop
    rw [hoperation] at hop
    split at hop
    · exact hop
    · rw [h.owner j op' hop] at hnone
      cases hnone
  unique := by
    intro j j' op' hj hj'
    rw [hoperation] at hj hj'
    have hout : ∀ x, (s.views x).operation ≠ some op' := by
      intro x hx
      rw [h.owner x op' hx] at hnone
      cases hnone
    by_cases hji : j = i
    · by_cases hji' : j' = i
      · rw [hji, hji']
      · rw [if_neg hji'] at hj'
        exact absurd hj' (hout _)
    · rw [if_neg hji] at hj
      exact absurd hj (hout _)
  agent := hagent
  openCalls := h.openCalls.trans hopen.symm
  quiet := by
    intro _
    rw [hopen]
    exact h.quiet (h.activeRun_of_none hnone)
  accepted := by
    intro j
    rw [hrejected]
    exact h.accepted j

/-- **The operation in progress ends**, and its call leaves it. -/
theorem finish {op : Operation} (hop : (s.views i).operation = some op)
    (hread : Calls.read s'.log = some { r with inProgress := none })
    (hactive : s'.isAgentRunActive = false) (hmanual : s'.manualCompaction = none)
    (hbranch : s'.branchSummary = none) (hrun : s'.activeRun = s.activeRun)
    (hopen : s'.openCalls = s.openCalls)
    (hoperation : ∀ j, (s'.views j).operation = if j = i then none else (s.views j).operation)
    (hagent : ∀ j, (s'.views j).atAgent = (s.views j).atAgent)
    (hrejected : ∀ j, (s'.views j).rejected = (s.views j).rejected) :
    Exclusive s' { r with inProgress := none } where
  read := hread
  active := hactive
  manual := by
    rw [hmanual]
    rfl
  branch := by
    rw [hbranch]
    rfl
  owner := by
    intro j op' hj
    rw [hoperation] at hj
    split at hj
    · cases hj
    case isFalse hne =>
      have hsame := (h.owner j op' hj).symm.trans (h.owner i op hop)
      rw [Option.some.injEq] at hsame
      exact absurd (h.unique j i op (hsame ▸ hj) hop) hne
  unique := by
    intro j j' op' hj hj'
    rw [hoperation] at hj hj'
    split at hj
    · cases hj
    · split at hj'
      · cases hj'
      · exact h.unique j j' op' hj hj'
  agent := by
    intro j
    rw [hrun, hagent]
    exact h.agent j
  openCalls := h.openCalls.trans hopen.symm
  quiet := by
    rw [hrun, hopen]
    exact h.quiet
  accepted := by
    intro j
    rw [hrejected]
    exact h.accepted j

end

end Exclusive

structure Reports (s : State) : Prop where
  listed : ∀ i, (s.views i).reports = true → i ∈ s.reporters
  cleared : s.reporters ≠ [] → s.manualCompaction = none

theorem Reports.congr (h : Reports s) (hreporters : s'.reporters = s.reporters)
    (hmanual : s.reporters ≠ [] → s.manualCompaction = none → s'.manualCompaction = none)
    (hviews : ∀ j, (s'.views j).reports = true → (s.views j).reports = true) : Reports s' := by
  refine ⟨fun j hj => ?_, fun hne => ?_⟩
  · rw [hreporters]
    exact h.listed j (hviews j hj)
  · rw [hreporters] at hne
    exact hmanual hne (h.cleared hne)

inductive CompactionStage (s : State) (k : Nat) : Prop where
  | unborn (hlog : s.log.filter (Event.ofCompaction k) = [])
      (hfree : ∀ i, (s.views i).compacts ≠ some k)
  | working (hk : k < s.next) (hlog : s.log.filter (Event.ofCompaction k) = [.compactionStart k])
      (i : CallId) (hi : (s.views i).compacts = some k)
      (honly : ∀ j, (s.views j).compacts = some k → j = i)
  | past (hk : k < s.next) (hlog : s.log.filter (Event.ofCompaction k)
        = [.compactionStart k, .compactionEnd (some k)])
      (hfree : ∀ i, (s.views i).compacts ≠ some k)

def Compactions (s : State) : Prop := ∀ k, CompactionStage s k

namespace Compactions

theorem congr (h : Compactions s) (hlog : s'.log = s.log ++ l)
    (hevents : ∀ e ∈ l, ∀ k, e.ofCompaction k = false)
    (hcompacts : ∀ j, (s'.views j).compacts = (s.views j).compacts)
    (hnext : s.next ≤ s'.next) : Compactions s' := by
  intro k
  have hfilter : s'.log.filter (Event.ofCompaction k) = s.log.filter (Event.ofCompaction k) := by
    have hnone : l.filter (Event.ofCompaction k) = [] :=
      List.filter_eq_nil_iff.mpr fun e he => by simp [hevents e he k]
    rw [hlog, List.filter_append, hnone, List.append_nil]
  cases h k with
  | unborn hnone hfree =>
    exact .unborn (hfilter.trans hnone) fun i => by rw [hcompacts]; exact hfree i
  | working hk hstart i hi honly =>
    refine .working (by omega) (hfilter.trans hstart) i ((hcompacts i).trans hi) ?_
    intro j hj
    exact honly j (by rw [← hcompacts, hj])
  | past hk hboth hfree =>
    exact .past (by omega) (hfilter.trans hboth) fun i => by rw [hcompacts]; exact hfree i

theorem start (h : Compactions s) (hfree : (s.views i).compacts = none)
    (hlog : s'.log = s.log ++ .compactionStart s.next :: l)
    (hevents : ∀ e ∈ l, ∀ k, e.ofCompaction k = false)
    (hcompacts : ∀ j, (s'.views j).compacts = if j = i then some s.next else (s.views j).compacts)
    (hnext : s'.next = s.next + 1) : Compactions s' := by
  intro k
  have hnone : l.filter (Event.ofCompaction k) = [] :=
    List.filter_eq_nil_iff.mpr fun e he => by simp [hevents e he k]
  by_cases hk : k = s.next
  · subst hk
    cases h s.next with
    | unborn hlog₀ hfree₀ =>
      refine .working (by omega) ?_ i (by simp [hcompacts]) fun j hj => ?_
      · simp [hlog, hlog₀, hnone, Event.ofCompaction]
      · rw [hcompacts] at hj
        by_contra hne
        rw [if_neg hne] at hj
        exact hfree₀ j hj
    | working hk => omega
    | past hk => omega
  · have hfilter : s'.log.filter (Event.ofCompaction k) = s.log.filter (Event.ofCompaction k) := by
      simp [hlog, hnone, Event.ofCompaction, Ne.symm hk]
    have hsame : ∀ j, (s'.views j).compacts = some k ↔ (s.views j).compacts = some k := by
      intro j
      rw [hcompacts]
      by_cases hj : j = i
      · simp [hj, hfree, Ne.symm hk]
      · simp [hj]
    cases h k with
    | unborn hlog₀ hfree₀ =>
      exact .unborn (hfilter.trans hlog₀) fun j hj => hfree₀ j ((hsame j).mp hj)
    | working hk' hstart x hx honly =>
      exact .working (by omega) (hfilter.trans hstart) x ((hsame x).mpr hx)
        fun j hj => honly j ((hsame j).mp hj)
    | past hk' hboth hfree₀ =>
      exact .past (by omega) (hfilter.trans hboth) fun j hj => hfree₀ j ((hsame j).mp hj)

theorem finish (h : Compactions s) {k : Nat} (hi : (s.views i).compacts = some k)
    (hlog : s'.log = s.log ++ l) (hevents : ∀ j, l.filter (Event.ofCompaction j)
      = if j = k then [.compactionEnd (some k)] else [])
    (hcompacts : ∀ j, (s'.views j).compacts = if j = i then none else (s.views j).compacts)
    (hnext : s'.next = s.next) : Compactions s' := by
  intro j
  by_cases hj : j = k
  · subst hj
    cases h j with
    | unborn _ hfree => exact absurd hi (hfree i)
    | working hk hstart x hx honly =>
      refine .past (by omega) ?_ fun y hy => ?_
      · simp [hlog, hstart, hevents]
      · rw [hcompacts] at hy
        split at hy
        · cases hy
        case isFalse hne => exact hne ((honly y hy).trans (honly i hi).symm)
    | past _ _ hfree => exact absurd hi (hfree i)
  · have hfilter : s'.log.filter (Event.ofCompaction j) = s.log.filter (Event.ofCompaction j) := by
      simp [hlog, hevents, hj]
    have hsame : ∀ y, (s'.views y).compacts = some j ↔ (s.views y).compacts = some j := by
      intro y
      rw [hcompacts]
      by_cases hy : y = i
      · simp [hy, hi, Ne.symm hj]
      · simp [hy]
    cases h j with
    | unborn hlog₀ hfree =>
      exact .unborn (hfilter.trans hlog₀) fun y hy => hfree y ((hsame y).mp hy)
    | working hk hstart x hx honly =>
      exact .working (by omega) (hfilter.trans hstart) x ((hsame x).mpr hx)
        fun y hy => honly y ((hsame y).mp hy)
    | past hk hboth hfree =>
      exact .past (by omega) (hfilter.trans hboth) fun y hy => hfree y ((hsame y).mp hy)

end Compactions

/-! ## The events of a run -/

inductive RunStage (s : State) (k : Nat) : Prop where
  | unborn (hlog : s.log.filter (Event.ofRun k) = [])
      (hrun : ∀ i, (s.views i).operation ≠ some (.run k))
      (hsettles : ∀ i, (s.views i).settles ≠ some k)
  | running (hk : k < s.next) (hlog : s.log.filter (Event.ofRun k) = [.started (.run k)])
      (hrun : ∃ i, (s.views i).operation = some (.run k))
      (hsettles : ∀ i, (s.views i).settles ≠ some k)
  | settling (hk : k < s.next)
      (hlog : s.log.filter (Event.ofRun k) = [.started (.run k), .ended (.run k)])
      (hrun : ∀ i, (s.views i).operation ≠ some (.run k))
      (i : CallId) (hi : (s.views i).settles = some k)
      (honly : ∀ j, (s.views j).settles = some k → j = i)
  | past (hk : k < s.next) (hlog : s.log.filter (Event.ofRun k)
        = [.started (.run k), .ended (.run k), .settled k])
      (hrun : ∀ i, (s.views i).operation ≠ some (.run k))
      (hsettles : ∀ i, (s.views i).settles ≠ some k)

def Runs (s : State) : Prop := ∀ k, RunStage s k

namespace Runs

theorem stage_congr {k : Nat} (h : RunStage s k)
    (hfilter : s'.log.filter (Event.ofRun k) = s.log.filter (Event.ofRun k))
    (hoperation : ∀ j, (s'.views j).operation = some (.run k) ↔
      (s.views j).operation = some (.run k))
    (hsettles : ∀ j, (s'.views j).settles = some k ↔ (s.views j).settles = some k)
    (hnext : s.next ≤ s'.next) : RunStage s' k := by
  cases h with
  | unborn hlog hrun hfree =>
    exact .unborn (hfilter.trans hlog) (fun i hi => hrun i ((hoperation i).mp hi))
      fun i hi => hfree i ((hsettles i).mp hi)
  | running hk hlog hrun hfree =>
    obtain ⟨i, hi⟩ := hrun
    exact .running (by omega) (hfilter.trans hlog) ⟨i, (hoperation i).mpr hi⟩
      fun j hj => hfree j ((hsettles j).mp hj)
  | settling hk hlog hrun i hi honly =>
    exact .settling (by omega) (hfilter.trans hlog)
      (fun j hj => hrun j ((hoperation j).mp hj)) i ((hsettles i).mpr hi)
      fun j hj => honly j ((hsettles j).mp hj)
  | past hk hlog hrun hfree =>
    exact .past (by omega) (hfilter.trans hlog) (fun i hi => hrun i ((hoperation i).mp hi))
      fun i hi => hfree i ((hsettles i).mp hi)

theorem congr (h : Runs s) (hlog : s'.log = s.log ++ l) (hevents : ∀ e ∈ l, ∀ k, e.ofRun k = false)
    (hoperation : ∀ j k, (s'.views j).operation = some (.run k) ↔
      (s.views j).operation = some (.run k))
    (hsettles : ∀ j, (s'.views j).settles = (s.views j).settles)
    (hnext : s.next ≤ s'.next) : Runs s' := by
  intro k
  refine stage_congr (h k) ?_ (fun j => hoperation j k) (fun j => by rw [hsettles]) hnext
  have hnone : l.filter (Event.ofRun k) = [] :=
    List.filter_eq_nil_iff.mpr fun e he => by simp [hevents e he k]
  rw [hlog, List.filter_append, hnone, List.append_nil]

theorem start (h : Runs s) (hfree : (s.views i).operation = none)
    (hlog : s'.log = s.log ++ [.started (.run s.next)])
    (hoperation : ∀ j, (s'.views j).operation
      = if j = i then some (.run s.next) else (s.views j).operation)
    (hsettles : ∀ j, (s'.views j).settles = (s.views j).settles)
    (hnext : s'.next = s.next + 1) : Runs s' := by
  intro k
  by_cases hk : k = s.next
  · subst hk
    cases h s.next with
    | unborn hlog₀ hrun hfree₀ =>
      refine .running (by omega) ?_ ⟨i, by simp [hoperation]⟩ fun j => ?_
      · simp [hlog, hlog₀, Event.ofRun]
      · rw [hsettles]
        exact hfree₀ j
    | _ => omega
  · refine stage_congr (h k) ?_ (fun j => ?_) (fun j => by rw [hsettles]) (by omega)
    · simp [hlog, Event.ofRun, Ne.symm hk]
    · rw [hoperation]
      by_cases hj : j = i
      · simp [hj, hfree, Ne.symm hk]
      · simp [hj]

theorem finish (h : Runs s) {k : Nat} (hi : (s.views i).operation = some (.run k))
    (hunique : ∀ j, (s.views j).operation = some (.run k) → j = i)
    (hsettle : (s.views i).settles = none) (hlog : s'.log = s.log ++ .ended (.run k) :: l)
    (hevents : ∀ e ∈ l, ∀ k, e.ofRun k = false)
    (hoperation : ∀ j, (s'.views j).operation = if j = i then none else (s.views j).operation)
    (hsettles : ∀ j, (s'.views j).settles = if j = i then some k else (s.views j).settles)
    (hnext : s'.next = s.next) : Runs s' := by
  intro j
  have hnone : l.filter (Event.ofRun j) = [] :=
    List.filter_eq_nil_iff.mpr fun e he => by simp [hevents e he j]
  by_cases hj : j = k
  · subst hj
    cases h j with
    | unborn _ hrun _ => exact absurd hi (hrun i)
    | running hk hstart _ hfree =>
      refine .settling (by omega) ?_ (fun y hy => ?_) i (by simp [hsettles]) fun y hy => ?_
      · simp [hlog, hstart, hnone, Event.ofRun]
      · rw [hoperation] at hy
        split at hy
        · cases hy
        case isFalse hne => exact hne (hunique y hy)
      · rw [hsettles] at hy
        by_contra hne
        rw [if_neg hne] at hy
        exact hfree y hy
    | settling _ _ hrun => exact absurd hi (hrun i)
    | past _ _ hrun _ => exact absurd hi (hrun i)
  · refine stage_congr (h j) ?_ (fun y => ?_) (fun y => ?_) (by omega)
    · simp [hlog, hnone, Event.ofRun, Ne.symm hj]
    · rw [hoperation]
      by_cases hy : y = i
      · simp [hy, hi, Ne.symm hj]
      · simp [hy]
    · rw [hsettles]
      by_cases hy : y = i
      · simp [hy, hsettle, Ne.symm hj]
      · simp [hy]

theorem settle (h : Runs s) {k : Nat} (hi : (s.views i).settles = some k)
    (hlog : s'.log = s.log ++ .settled k :: l) (hevents : ∀ e ∈ l, ∀ k, e.ofRun k = false)
    (hoperation : ∀ j, (s'.views j).operation = (s.views j).operation)
    (hsettles : ∀ j, (s'.views j).settles = if j = i then none else (s.views j).settles)
    (hnext : s'.next = s.next) : Runs s' := by
  intro j
  have hnone : l.filter (Event.ofRun j) = [] :=
    List.filter_eq_nil_iff.mpr fun e he => by simp [hevents e he j]
  by_cases hj : j = k
  · subst hj
    cases h j with
    | unborn _ _ hfree => exact absurd hi (hfree i)
    | running _ _ _ hfree => exact absurd hi (hfree i)
    | settling hk hboth hrun x hx honly =>
      refine .past (by omega) ?_ (fun y => ?_) fun y hy => ?_
      · simp [hlog, hboth, hnone, Event.ofRun]
      · rw [hoperation]
        exact hrun y
      · rw [hsettles] at hy
        split at hy
        · cases hy
        case isFalse hne => exact hne ((honly y hy).trans (honly i hi).symm)
    | past _ _ _ hfree => exact absurd hi (hfree i)
  · refine stage_congr (h j) ?_ (fun y => by rw [hoperation]) (fun y => ?_) (by omega)
    · simp [hlog, hnone, Event.ofRun, Ne.symm hj]
    · rw [hsettles]
      by_cases hy : y = i
      · simp [hy, hi, Ne.symm hj]
      · simp [hy]

end Runs

end ReflectivePi.Calls
