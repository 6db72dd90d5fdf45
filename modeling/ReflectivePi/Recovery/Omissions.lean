import ReflectivePi.Recovery.Streaks

/-!
# Recovery — Omissions

A retried attempt is hidden from every later request, and stays in the
entries. While nobody moves the branch, everything a session writes extends
it, and no edit of the session brings a hidden attempt back.

Together with the reading of the log this is what a retry promises
(`Proper`); `retries_proper` has the runs that keep the promise.
-/

namespace ReflectivePi.Recovery

open List
open Agent (StopReason)
open Session Session.LiveManager

/-! ## The promise -/

/-- The context does not show the entry `id`. -/
def MissingFrom (id : EntryId) (context : SessionProjection) : Prop :=
  ∀ p ∈ context.entries, p.sourceEntry.id = id → p.messages = []

/-- A hidden attempt is missing from every later request, and hiding it has
removed nothing else. -/
def Recorded (log : List Item) : Prop :=
  ∀ earlier id before after later, log = earlier ++ .omitted id before after :: later →
      shownBesides id before <+: after.messages ∧
        ∀ context, .request context ∈ later → MissingFrom id context

/-- Every response is an entry of the session. -/
def Stored (log : List Item) (m : LiveManager) : Prop :=
  ∀ id c, .response id c ∈ log → ∃ e ∈ m.getEntries, e.id = id ∧ e.kind = .message c.toMessage

/-- **What a retry promises**: streaks are counted and closed, and a retried
attempt leaves the context alone, for good. -/
structure Proper (s : State) : Prop where
  streaks : (scan s.log).isSome = true
  recorded : Recorded s.log
  stored : Stored s.log s.manager

namespace Recorded

variable {log : List Item} {item : Item}

theorem nil : Recorded [] := by
  intro earlier id before after later h
  simp at h

/-- One more item: a request that misses what is hidden, a hiding that
removes nothing else, or an item of another kind. -/
theorem concat (h : Recorded log)
    (hrequest : ∀ context, item = .request context → ∀ id ∈ retried log, MissingFrom id context)
    (homitted : ∀ id before after, item = .omitted id before after →
      shownBesides id before <+: after.messages) : Recorded (log ++ [item]) := by
  intro earlier id before after later hsplit
  induction later using List.reverseRecOn with
  | nil =>
    have hlast := append_inj_right' hsplit rfl
    exact ⟨homitted id before after (List.singleton_inj.mp hlast), by simp⟩
  | append_singleton later last _ =>
    rw [← cons_append, ← append_assoc] at hsplit
    have hlog := append_inj_left' hsplit rfl
    have hlast := List.singleton_inj.mp (append_inj_right' hsplit rfl)
    obtain ⟨hbefore, hlater⟩ := h earlier id before after later hlog
    refine ⟨hbefore, fun context hcontext => ?_⟩
    rcases List.mem_append.mp hcontext with hmem | hmem
    · exact hlater context hmem
    · have hitem : item = .request context := by
        rw [hlast]
        exact (List.mem_singleton.mp hmem).symm
      refine hrequest context hitem id ?_
      rw [hlog]
      simp [retried]

end Recorded

/-! ## What is written -/

/-- `s'` is `s` after writes that spare what is retried, with events. -/
structure Moves (s s' : State) : Prop where
  manager : Extends (SessionEntry.Spares (retried s.log)) s.manager s'.manager
  log : ∃ events : List SessionEvent, s'.log = s.log ++ events.map .emitted

theorem retried_events (log : List Item) (events : List SessionEvent) :
    retried (log ++ events.map .emitted) = retried log := by
  simp [retried, filterMap_append, filterMap_map]

namespace Moves

variable {s s' s'' : State}

theorem retried_eq (h : Moves s s') : retried s'.log = retried s.log := by
  obtain ⟨events, hlog⟩ := h.log
  rw [hlog, retried_events]

theorem refl (h : Good s.manager) : Moves s s :=
  ⟨.refl h, [], by simp⟩

theorem trans (h : Moves s s') (h' : Moves s' s'') : Moves s s'' := by
  obtain ⟨events, hlog⟩ := h.log
  obtain ⟨events', hlog'⟩ := h'.log
  refine ⟨h.manager.trans ?_, events ++ events', by
    rw [hlog', hlog, map_append, append_assoc]⟩
  have hwrites := h'.manager
  rwa [h.retried_eq] at hwrites

theorem congr {t t' : State} (h : Moves s s') (hm : t.manager = s.manager) (hl : t.log = s.log)
    (hm' : t'.manager = s'.manager) (hl' : t'.log = s'.log) : Moves t t' := by
  obtain ⟨hmanager, hlog⟩ := h
  exact ⟨by rw [hl, hm, hm']; exact hmanager, by rw [hl, hl']; exact hlog⟩

end Moves

namespace State

variable {env : Environment} {s : State}

theorem moves_emit (h : Good s.manager) (event : SessionEvent) : Moves s (s.emit event) :=
  ⟨.refl h, [event], rfl⟩

theorem moves_append (h : Good s.manager) (hfresh : env.Fresh) {kind : EntryKind}
    (hkind : (s.manager.newEntry env kind).isLabelOrPrune = false)
    (hspares : (s.manager.newEntry env kind).Spares (retried s.log)) :
    Moves s (s.append env kind) :=
  ⟨extends_append h hfresh hkind hspares, [], by simp [append]⟩

theorem replacement_of_validateContextEdit {m : LiveManager} {id : EntryId}
    {active : List EntryId} {replacement : Option Content}
    (h : m.validateContextEdit id none none active = .ok replacement) : replacement = none := by
  obtain ⟨target, -, h⟩ := ok_of_bind h
  simp only [Option.isSome_none, Bool.and_false, Bool.false_and, Bool.false_eq_true, if_false] at h
  exact (Except.ok.inj h).symm

theorem appendContextEdit_eq_some {m m' : LiveManager} {id : EntryId}
    (h : appendContextEdit env m id = some m') :
    m' = (m.append env (.contextEdit id none none)).1 := by
  unfold appendContextEdit at h
  split at h
  · cases h
  case h_2 replacement hvalid =>
    rw [replacement_of_validateContextEdit hvalid] at h
    exact (Option.some.inj h).symm

theorem moves_omitRecoveryAttempt (s : State) (h : Good s.manager)
    (hfresh : env.Fresh) (ids : List EntryId) : Moves s (s.omitRecoveryAttempt env ids).1 := by
  induction ids generalizing s with
  | nil => exact .refl h
  | cons id ids ih =>
    unfold omitRecoveryAttempt
    split
    · exact .refl h
    case h_2 manager hedit =>
      rw [appendContextEdit_eq_some hedit]
      have hfirst : Moves s (s.append env (.contextEdit id none none)) :=
        moves_append h hfresh rfl fun t _ htarget => by
          cases htarget
          exact ⟨none, rfl⟩
      have hemit := moves_emit hfirst.manager.good (.entryAppended (s.nextId env))
      exact (hfirst.trans hemit).trans (ih _ (hfirst.trans hemit).manager.good)

theorem moves_finishCancelledRetry (h : Good s.manager) : Moves s s.finishCancelledRetry := by
  unfold finishCancelledRetry
  split
  · exact .refl h
  · exact (moves_emit h _).congr rfl rfl rfl rfl

theorem moves_runAutoCompaction (h : Good s.manager) (r : CheckReadings)
    (reason : Reason) (willRetry : Bool) : Moves s (s.runAutoCompaction r reason willRetry).1 := by
  unfold runAutoCompaction
  split
  · exact .refl h
  · exact moves_emit h _

variable {patterns : ErrorPatterns} {a : Attempt} {skipAbortedCheck : Bool}
  {toolResults : List EntryId} {r : CheckReadings} {hasQueued : Bool}

theorem moves_checkCompaction (h : Good s.manager) (hfresh : env.Fresh) :
    Moves s
      (s.checkCompaction patterns env a skipAbortedCheck toolResults r).1 := by
  unfold checkCompaction
  dsimp only
  split
  · exact .refl h
  split
  · exact .refl h
  split
  · exact .refl h
  split
  · split
    · exact moves_runAutoCompaction h r _ _
    split
    · exact moves_emit h _
    · have homitted := moves_omitRecoveryAttempt
        { s with overflowRecoveryAttempted := true } h hfresh
        (a.entryId :: toolResults)
      generalize omitRecoveryAttempt env { s with overflowRecoveryAttempted := true }
        (a.entryId :: toolResults) = omission at homitted ⊢
      obtain ⟨s₁, returned⟩ := omission
      have hmoves : Moves s s₁ := homitted.congr rfl rfl rfl rfl
      cases returned with
      | true =>
        exact hmoves.trans (moves_runAutoCompaction hmoves.manager.good r _ _)
      | false => exact hmoves
  · split
    · exact moves_runAutoCompaction h r _ _
    · exact .refl h

theorem moves_finishCompaction (h : Good s.manager) (hfresh : env.Fresh)
    (reason : Reason) (willRetry : Bool) (outcome : CompactionOutcome) :
    Moves s (s.finishCompaction env reason willRetry outcome) := by
  cases outcome with
  | failed aborted message => exact moves_emit h _
  | done summary first tokens details fromExtension =>
    refine ⟨?_, [_], rfl⟩
    exact extends_append h hfresh rfl (spares_of_none rfl)

theorem moves_handleMessage (h : Good s.manager) (hfresh : env.Fresh)
    (message : AgentMessage) : Moves s (s.handleMessage env message) := by
  cases message with
  | user content timestamp =>
    have happend : Moves s (s.append env (.message (.user content timestamp))) :=
      moves_append h hfresh rfl (spares_of_none rfl)
    exact happend.congr rfl rfl rfl rfl
  | custom m => exact moves_append h hfresh rfl (spares_of_none rfl)
  | assistant m => exact moves_append h hfresh rfl (spares_of_none rfl)
  | toolResult m => exact moves_append h hfresh rfl (spares_of_none rfl)
  | system m => exact moves_append h hfresh rfl (spares_of_none rfl)
  | contextStatus content timestamp =>
    exact moves_append h hfresh rfl (spares_of_none rfl)
  | _ => exact .refl h

theorem moves_foldl_handleMessage (s : State) (h : Good s.manager)
    (hfresh : env.Fresh) (messages : List AgentMessage) :
    Moves s (messages.foldl (handleMessage env) s) := by
  induction messages generalizing s with
  | nil => exact .refl h
  | cons message messages ih =>
    have hone := moves_handleMessage h hfresh message
    exact hone.trans (ih _ hone.manager.good)

section

variable (h : Good s.manager)

include h

theorem moves_withPhase (phase : Phase) :
    Moves s (s.withPhase phase) := (Moves.refl h).congr rfl rfl rfl rfl

theorem moves_proceed (continues : Bool) : Moves s (s.proceed continues) := by
  unfold proceed
  split
  · exact moves_withPhase h _
  · split <;> exact moves_withPhase h _

theorem moves_afterRetry (hfresh : env.Fresh) :
    Moves s (s.afterRetry patterns env a toolResults r hasQueued) := by
  unfold afterRetry
  dsimp only
  generalize hs₁ : (if a.completion.stopReason = .error ∧ 0 < s.retryAttempt then
      { s.emit (.autoRetryEnd false s.retryAttempt a.completion.errorMessage) with
        retryAttempt := 0 }
    else s) = s₁
  have hend : Moves s s₁ := by
    rw [← hs₁]
    split
    · exact (moves_emit h _).congr rfl rfl rfl rfl
    · exact .refl h
  have hcheck : Moves s₁ (s₁.checkCompaction patterns env a true toolResults r).1 :=
    moves_checkCompaction hend.manager.good hfresh
  generalize checkCompaction patterns env s₁ a true toolResults r = result at hcheck ⊢
  obtain ⟨s₂, check⟩ := result
  have hmoves : Moves s s₂ := hend.trans hcheck
  have hgood := hmoves.manager.good
  cases check with
  | returns result => exact hmoves.trans (moves_proceed hgood _)
  | _ => exact hmoves.trans (moves_withPhase hgood _)

theorem moves_handlePostAgentRun {settings : RetrySettings}
    (hfresh : env.Fresh) :
    Moves s (s.handlePostAgentRun patterns env settings r hasQueued) := by
  have hcleared : Moves s { s with
      lastAssistantMessage := none, lastAssistantToolResults := [] } :=
    (Moves.refl h).congr rfl rfl rfl rfl
  unfold handlePostAgentRun
  split
  · exact moves_withPhase h _
  dsimp only
  split
  · exact hcleared.trans (moves_proceed hcleared.manager.good _)
  case h_2 a _ =>
    have hrest : Moves s (afterRetry patterns env { s with
        lastAssistantMessage := none, lastAssistantToolResults := [] } a
        s.lastAssistantToolResults r hasQueued) :=
      hcleared.trans (moves_afterRetry hcleared.manager.good hfresh)
    split
    · split
      case h_1 s₁ hprepare =>
        obtain ⟨-, rfl⟩ := prepareRetry_eq_some hprepare
        exact (moves_emit h _).congr rfl rfl rfl rfl
      case h_2 => exact hrest
    · exact hrest

theorem moves_wake {elapsed : Bool} (hfresh : env.Fresh) :
    Moves s (s.wake patterns env a toolResults elapsed r hasQueued) := by
  have hcancelled := moves_finishCancelledRetry h
  have hgood := hcancelled.manager.good
  unfold wake
  split
  · split
    · exact hcancelled.trans (moves_withPhase hgood _)
    · exact moves_withPhase h _
  · dsimp only
    split
    · exact hcancelled.trans (moves_withPhase hgood _)
    · exact hcancelled.trans (moves_afterRetry hgood hfresh)

theorem moves_compacted {reason : Reason} {willRetry preflight : Bool}
    {outcome : CompactionOutcome} (hfresh : env.Fresh) :
    Moves s (s.compacted env reason willRetry preflight outcome hasQueued) := by
  have hfinished := moves_finishCompaction h hfresh reason willRetry outcome
  have hgood := hfinished.manager.good
  unfold compacted
  dsimp only
  split
  · exact hfinished.trans (moves_withPhase hgood _)
  · exact hfinished.trans (moves_proceed hgood _)

theorem moves_endTurn {c : Completion} {terminate drained : Bool}
    {decision : Decision} :
    Moves s (s.endTurn c terminate decision drained) := by
  refine (Moves.refl h).congr rfl rfl ?_ ?_ <;>
    (unfold endTurn
     split
     · rfl
     · dsimp only
       split
       · rfl
       · split <;> rfl)

end

end State

/-! ## The attempts that may be hidden next -/

def Phase.attempt? : Phase → Option Attempt
  | .omitting a _ | .sleeping a _ => some a
  | _ => none

/-- The attempt that waits to be handled, or is handled. -/
def State.pending (s : State) : List Attempt :=
  s.lastAssistantMessage.toList ++ s.phase.attempt?.toList

/-- The attempt is an entry of the current branch. -/
def OnBranch (m : LiveManager) (a : Attempt) : Prop :=
  ∃ e ∈ m.getBranch, e.id = a.entryId ∧ e.kind = .message a.completion.toMessage

theorem OnBranch.extends {ok : SessionEntry → Prop} {m m' : LiveManager}
    {a : Attempt} (h : OnBranch m a) (hm : Extends ok m m') : OnBranch m' a := by
  obtain ⟨e, he, hid, hkind⟩ := h
  exact ⟨e, hm.mem_branch he, hid, hkind⟩

/-- **An attempt on the branch can be hidden.** -/
theorem OnBranch.appendContextEdit {m : LiveManager} {a : Attempt}
    {env : Environment} (h : OnBranch m a) (hm : Good m) :
    State.appendContextEdit env m a.entryId
      = some (m.append env (.contextEdit a.entryId none none)).1 := by
  obtain ⟨e, he, hid, hkind⟩ := h
  have hentry : e ∈ m.getEntries := by
    rw [getBranch, hm.synced.walk_eq] at he
    exact ParentWalk.ancestry_mem he
  have hfound : m.byId.get? a.entryId = some e := by
    rw [hm.synced.byId, ← hid]
    exact ParentWalk.lookup_of_mem hm.tree.distinct hentry
  have hactive : a.entryId ∈ m.getBranch.map SessionEntry.id := hid ▸ mem_map_of_mem he
  have htarget : m.getContextEditTarget a.entryId (m.getBranch.map SessionEntry.id) = .ok e := by
    simp [getContextEditTarget, hfound, hactive, sessionEntryToContextMessages, hkind]
  have hvalid : m.validateContextEdit a.entryId none none
      (m.getBranch.map SessionEntry.id) = .ok none := by
    rw [LiveManager.validateContextEdit, htarget]
    simp [bind, Except.bind, SessionManager.normalizeReplacement]
  rw [State.appendContextEdit, hvalid]

namespace State

variable {patterns : ErrorPatterns} {env : Environment} {s : State}
  {a : Attempt} {toolResults : List EntryId} {r : CheckReadings}
  {hasQueued : Bool}

@[simp] theorem pending_withPhase (s : State) (phase : Phase) :
    (s.withPhase phase).pending = s.lastAssistantMessage.toList ++ phase.attempt?.toList := rfl

theorem pending_proceed (s : State) (continues : Bool) :
    (s.proceed continues).pending = s.lastAssistantMessage.toList := by
  unfold proceed
  split
  · exact append_nil _
  · split <;> exact append_nil _

theorem pending_afterRetry :
    (s.afterRetry patterns env a toolResults r hasQueued).pending
      = s.lastAssistantMessage.toList := by
  unfold afterRetry
  dsimp only
  generalize hs₁ : (if a.completion.stopReason = .error ∧ 0 < s.retryAttempt then
      { s.emit (.autoRetryEnd false s.retryAttempt a.completion.errorMessage) with
        retryAttempt := 0 }
    else s) = s₁
  have hlast₁ : s₁.lastAssistantMessage = s.lastAssistantMessage := by
    rw [← hs₁]
    split <;> rfl
  have hview := view_checkCompaction patterns env s₁ a true toolResults r
  generalize checkCompaction patterns env s₁ a true toolResults r = result at hview ⊢
  obtain ⟨s₂, check⟩ := result
  have hlast : s₂.lastAssistantMessage = s.lastAssistantMessage :=
    (congrArg RetryView.lastAssistantMessage hview).trans hlast₁
  cases check with
  | returns result => rw [← hlast]; exact pending_proceed s₂ _
  | _ => rw [← hlast]; exact append_nil _

theorem mem_pending_last (h : a ∈ s.lastAssistantMessage.toList) :
    a ∈ s.pending := mem_append_left _ h

theorem pending_handlePostAgentRun {settings : RetrySettings}
    (h : a ∈ (s.handlePostAgentRun patterns env settings r hasQueued).pending) : a ∈ s.pending := by
  unfold handlePostAgentRun at h
  split at h
  · exact mem_pending_last (by simpa [Phase.attempt?] using h)
  dsimp only at h
  split at h
  · rw [pending_proceed] at h
    simp at h
  case h_2 last hlast =>
    have hrest : ∀ b, b ∉ (afterRetry patterns env { s with
        lastAssistantMessage := none, lastAssistantToolResults := [] } last
        s.lastAssistantToolResults r hasQueued).pending := by
      intro b hb
      rw [pending_afterRetry] at hb
      simp at hb
    split at h
    · split at h
      case h_1 s₁ hprepare =>
        obtain ⟨-, rfl⟩ := prepareRetry_eq_some hprepare
        have : a = last := by simpa [pending, emit, Phase.attempt?] using h
        rw [this]
        exact mem_pending_last (by simp [hlast])
      case h_2 => exact absurd h (hrest a)
    · exact absurd h (hrest a)

theorem pending_finishCancelledRetry (s : State) :
    s.finishCancelledRetry.lastAssistantMessage = s.lastAssistantMessage := by
  unfold finishCancelledRetry
  split <;> rfl

theorem pending_wake {b : Attempt} {elapsed : Bool}
    (h : b ∈ (s.wake patterns env a toolResults elapsed r hasQueued).pending) :
    b ∈ s.lastAssistantMessage.toList := by
  unfold wake at h
  split at h
  · split at h
    · simpa [Phase.attempt?, pending_finishCancelledRetry] using h
    · simpa [Phase.attempt?] using h
  · dsimp only at h
    split at h
    · simpa [Phase.attempt?, pending_finishCancelledRetry] using h
    · rw [pending_afterRetry, pending_finishCancelledRetry] at h
      exact h

theorem pending_compacted {b : Attempt} {reason : Reason}
    {willRetry preflight : Bool} {outcome : CompactionOutcome}
    (h : b ∈ (s.compacted env reason willRetry preflight outcome
      hasQueued).pending) : b ∈ s.lastAssistantMessage.toList := by
  have hlast : (s.finishCompaction env reason willRetry outcome).lastAssistantMessage
      = s.lastAssistantMessage := by
    cases outcome <;> rfl
  unfold compacted at h
  dsimp only at h
  split at h
  · simpa [Phase.attempt?, hlast] using h
  · rw [pending_proceed, hlast] at h
    exact h

theorem pending_endTurn {c : Completion} {terminate drained : Bool} {decision : Decision} :
    (s.endTurn c terminate decision drained).pending = s.lastAssistantMessage.toList := by
  unfold endTurn
  split
  · exact append_nil _
  · dsimp only
    split
    · exact append_nil _
    · split <;> exact append_nil _

end State

/-! ## The invariant -/

structure Context (s : State) : Prop where
  good : Good s.manager
  hidden : ∀ id ∈ retried s.log, Hides s.manager.getBranch id
  recorded : Recorded s.log
  stored : Stored s.log s.manager
  pending : ∀ a ∈ s.pending, OnBranch s.manager a

namespace Context

variable {s s' : State}

theorem recorded_events {log : List Item} (h : Recorded log)
    (events : List SessionEvent) : Recorded (log ++ events.map .emitted) := by
  induction events using List.reverseRecOn with
  | nil => simpa using h
  | append_singleton events event ih =>
    rw [map_append, ← append_assoc]
    exact ih.concat (by simp) (by simp)

theorem moves (h : Context s) (hmoves : Moves s s')
    (hpending : ∀ a ∈ s'.pending, a ∈ s.pending) : Context s' := by
  have hretried := hmoves.retried_eq
  obtain ⟨hmanager, events, hlog⟩ := hmoves
  refine ⟨hmanager.good, fun id hid => ?_, ?_, fun id c hc => ?_, fun a ha => ?_⟩
  · rw [hretried] at hid
    exact hmanager.hides hid (h.hidden id hid)
  · rw [hlog]
    exact recorded_events h.recorded events
  · have hold : .response id c ∈ s.log := by
      rw [hlog] at hc
      simpa using hc
    obtain ⟨e, he, hentry⟩ := h.stored id c hold
    exact ⟨e, hmanager.entries e he, hentry⟩
  · exact (h.pending a (hpending a ha)).extends hmanager

theorem request (h : Context s) {phase : Phase} (hphase : phase.attempt? = none) :
    Context { s with
      phase, log := s.log ++ [.request s.manager.buildSessionProjection] } := by
  refine ⟨h.good, fun id hid => h.hidden id ?_, ?_, fun id c hc => ?_, fun a ha => h.pending a ?_⟩
  · simpa [retried] using hid
  · refine h.recorded.concat (fun context hcontext id hid => ?_) (by simp)
    cases hcontext
    exact fun p hp heq => h.good.missing (h.hidden id hid) hp heq
  · exact h.stored id c (by simpa using hc)
  · refine State.mem_pending_last ?_
    simpa [State.pending, hphase] using ha

theorem onBranch_append {m : LiveManager} {env : Environment} {c : Completion}
    (hm : Good m) (hfresh : env.Fresh) :
    OnBranch (m.append env (.message c.toMessage)).1
      ⟨c, env.generateId m.byId.keys⟩ := by
  have hextends : Extends (fun _ => True) m (m.append env (.message c.toMessage)).1 :=
    extends_append hm hfresh rfl trivial
  refine ⟨m.newEntry env (.message c.toMessage), ?_, rfl, rfl⟩
  rw [getBranch_appended hm hfresh hextends.good.synced (getEntries_appendEntry _ _)
    (leafId_appendEntry _ _)]
  simp

theorem log_handleResponse (env : Environment) (s : State) (c : Completion) :
    ∃ events : List SessionEvent, (s.handleResponse env c).log
        = s.log ++ [.response (s.nextId env) c] ++ events.map .emitted ∧
      (s.handleResponse env c).manager = (s.manager.append env (.message c.toMessage)).1 := by
  unfold State.handleResponse
  dsimp only
  split <;> split
  · exact ⟨[_], rfl, rfl⟩
  · exact ⟨[], (append_nil _).symm, rfl⟩
  · exact ⟨[_], rfl, rfl⟩
  · exact ⟨[], (append_nil _).symm, rfl⟩

/-- **A response is stored on the branch**, and may be hidden next. -/
theorem handleResponse {env : Environment} {c : Completion} (h : Context s)
    (hfresh : env.Fresh) (hmanager : s'.manager = (s.handleResponse env c).manager)
    (hlog : s'.log = (s.handleResponse env c).log)
    (hpending : s'.pending = [⟨c, s.nextId env⟩]) : Context s' := by
  obtain ⟨events, hlog', hmanager'⟩ := log_handleResponse env s c
  rw [hmanager'] at hmanager
  rw [hlog'] at hlog
  have hextends : Extends (SessionEntry.Spares (retried s.log)) s.manager
      (s.manager.append env (.message c.toMessage)).1 :=
    extends_append h.good hfresh rfl (spares_of_none rfl)
  have hretried : retried s'.log = retried s.log := by
    rw [hlog, retried_events]
    simp [retried]
  refine ⟨hmanager ▸ hextends.good, fun id hid => ?_, ?_, fun id d hd => ?_, fun a ha => ?_⟩
  · rw [hretried] at hid
    rw [hmanager]
    exact hextends.hides hid (h.hidden id hid)
  · rw [hlog]
    exact recorded_events (h.recorded.concat (by simp) (by simp)) events
  · rw [hmanager]
    have hcases : .response id d ∈ s.log ∨ (id = s.nextId env ∧ d = c) := by
      rw [hlog] at hd
      simpa using hd
    rcases hcases with hold | ⟨rfl, rfl⟩
    · obtain ⟨e, he, hentry⟩ := h.stored id d hold
      exact ⟨e, hextends.entries e he, hentry⟩
    · refine ⟨s.manager.newEntry env (.message d.toMessage), ?_, rfl, rfl⟩
      rw [LiveManager.append, getEntries_appendEntry]
      simp
  · rw [hpending, mem_singleton] at ha
    rw [ha, hmanager]
    exact onBranch_append h.good hfresh

variable {env : Environment} {a : Attempt} {toolResults : List EntryId}

/-- **Hiding an attempt succeeds** and hides nothing else. -/
theorem omitAttempt (h : Context s) (hfresh : env.Fresh)
    (hphase : s.phase = .omitting a toolResults) :
    (s.omitRecoveryAttempt env [a.entryId]).2 = true ∧
      Context (s.omitAttempt env a toolResults) := by
  have hattempt : OnBranch s.manager a := by
    refine h.pending a (mem_append_right _ ?_)
    simp [hphase, Phase.attempt?]
  have homit : s.omitRecoveryAttempt env [a.entryId] = ({ s with manager :=
          (s.manager.append env (.contextEdit a.entryId none none)).1 }.emit
        (.entryAppended (s.nextId env)), true) := by
    simp only [State.omitRecoveryAttempt, hattempt.appendContextEdit h.good]
  refine ⟨by rw [homit], ?_⟩
  have hextends : Extends (SessionEntry.Spares (retried s.log)) s.manager
      (s.manager.append env (.contextEdit a.entryId none none)).1 := by
    refine extends_append h.good hfresh rfl fun t _ htarget => ?_
    cases htarget
    exact ⟨none, rfl⟩
  have hbranch : (s.manager.append env (.contextEdit a.entryId none none)).1.getBranch
      = s.manager.getBranch ++ [s.manager.newEntry env (.contextEdit a.entryId none none)] :=
    getBranch_appended h.good hfresh hextends.good.synced
      (getEntries_appendEntry _ _) (leafId_appendEntry _ _)
  unfold State.omitAttempt
  rw [homit]
  refine ⟨hextends.good, fun id hid => ?_, ?_, fun id c hc => ?_, fun b hb => ?_⟩
  · have hcases : id ∈ retried s.log ∨ id = a.entryId := by
      simpa [retried, State.emit] using hid
    rcases hcases with hold | rfl
    · exact hextends.hides hold (h.hidden id hold)
    · show Hides (s.manager.append env _).1.getBranch _
      rw [hbranch]
      exact Hides.of_last ⟨none, rfl⟩
  · refine (recorded_events h.recorded [.entryAppended (s.nextId env)]).concat
      (by simp) fun id before after hitem => ?_
    cases hitem
    exact h.good.prefix_hide hfresh a.entryId
  · have hold : .response id c ∈ s.log := by simpa [State.emit] using hc
    obtain ⟨e, he, hentry⟩ := h.stored id c hold
    exact ⟨e, hextends.entries e he, hentry⟩
  · refine (h.pending b ?_).extends hextends
    simpa [State.pending, State.emit, hphase, Phase.attempt?] using hb

variable {patterns : ErrorPatterns} {act : Act}
  {migrate : List FileEntry → List FileEntry × Bool}

/-- **Every orderly step keeps what is hidden hidden.** -/
theorem step (h : Context s) (hfresh : env.Fresh) (horderly : orderly s act = true)
    (hstep : Recovery.step patterns migrate s ⟨env, act⟩ = some s') : Context s' := by
  have hgood := h.good
  cases act with
  | prompt messages =>
    cases hphase : s.phase <;>
      simp only [Recovery.step, hphase, reduceCtorEq] at hstep
    case idle =>
      cases hstep
      have hmoves := State.moves_foldl_handleMessage { s with
          agentRunAbortRequested := false, calls := [],
          phase := .requesting false } hgood hfresh messages
      obtain ⟨hview, hframe⟩ := State.view_foldl_handleMessage env { s with
          agentRunAbortRequested := false, calls := [], phase := .requesting false } messages
      refine h.moves (hmoves.congr rfl rfl rfl rfl) fun a ha => ?_
      have hlast := congrArg RetryView.lastAssistantMessage hview
      refine State.mem_pending_last ?_
      simp only [State.view] at hlast
      simpa [State.pending, hframe, hlast, Phase.attempt?] using ha
  | preflight a r =>
    cases hphase : s.phase <;>
      simp only [Recovery.step, hphase, reduceCtorEq] at hstep
    case idle =>
      have hmoves : Moves s (s.checkCompaction patterns env a false [] r).1 :=
        State.moves_checkCompaction hgood hfresh
      have hview := State.view_checkCompaction patterns env s a false [] r
      generalize s.checkCompaction patterns env a false [] r = result at hstep hmoves hview
      obtain ⟨s₁, check⟩ := result
      have hlast : s₁.lastAssistantMessage = s.lastAssistantMessage :=
        congrArg RetryView.lastAssistantMessage hview
      have hafter : ∀ phase : Phase, phase.attempt? = none → Context (s₁.withPhase phase) := by
        intro phase hnone
        refine h.moves (hmoves.trans
          (State.moves_withPhase hmoves.manager.good phase)) fun b hb => ?_
        refine State.mem_pending_last ?_
        simpa [hnone, hlast] using hb
      cases check <;> cases hstep <;> exact hafter _ rfl
  | deliver source message =>
    cases hphase : s.phase <;>
      simp only [Recovery.step, hphase, reduceCtorEq] at hstep
    case requesting turned =>
      split at hstep <;> cases hstep
      obtain ⟨hview, hframe⟩ := State.view_foldl_handleMessage env s [message]
      refine h.moves (State.moves_handleMessage hgood hfresh message)
        fun a ha => ?_
      have hlast := congrArg RetryView.lastAssistantMessage hview
      simp only [State.view, foldl_cons, foldl_nil] at hlast hframe
      simpa [State.pending, hframe, hlast] using ha
  | request =>
    cases hphase : s.phase <;>
      simp only [Recovery.step, hphase, reduceCtorEq] at hstep
    case requesting turned =>
      cases hstep
      exact h.request rfl
  | complete c =>
    cases hphase : s.phase <;>
      simp only [Recovery.step, hphase, reduceCtorEq] at hstep
    case responding turned =>
      cases hstep
      refine h.handleResponse hfresh rfl rfl ?_
      simp [State.pending, Phase.attempt?]
  | fail c =>
    have hfailure : (s.handleRunFailure env c).pending = [⟨c, s.nextId env⟩] := by
      simp [State.pending, State.handleRunFailure, Phase.attempt?]
    cases hphase : s.phase <;>
      simp only [Recovery.step, hphase, reduceCtorEq] at hstep
    case requesting turned =>
      split at hstep <;> cases hstep
      exact h.handleResponse hfresh rfl rfl hfailure
    case responding turned =>
      split at hstep <;> cases hstep
      exact h.handleResponse hfresh rfl rfl hfailure
    case responded last =>
      split at hstep <;> cases hstep
      exact h.handleResponse hfresh rfl rfl hfailure
  | toolResult message =>
    cases hphase : s.phase <;>
      simp only [Recovery.step, hphase, reduceCtorEq] at hstep
    case responded c =>
      cases hstep
      have happend : Moves s (s.append env (.message (.toolResult message))) :=
        State.moves_append hgood hfresh rfl (spares_of_none rfl)
      refine h.moves (happend.congr rfl rfl rfl rfl) fun a ha => ?_
      simpa [State.pending, State.append, hphase, Phase.attempt?] using ha
  | endTurn terminate decision drained =>
    cases hphase : s.phase <;>
      simp only [Recovery.step, hphase, reduceCtorEq] at hstep
    case responded c =>
      cases hstep
      refine h.moves (State.moves_endTurn hgood) fun a ha => ?_
      refine State.mem_pending_last ?_
      rwa [State.pending_endTurn] at ha
  | post settings r hasQueued =>
    cases hphase : s.phase <;>
      simp only [Recovery.step, hphase, reduceCtorEq] at hstep
    case deciding =>
      cases hstep
      exact h.moves (State.moves_handlePostAgentRun hgood hfresh)
        fun a ha => State.pending_handlePostAgentRun ha
  | omitAttempt =>
    cases hphase : s.phase <;>
      simp only [Recovery.step, hphase, reduceCtorEq] at hstep
    case omitting a toolResults =>
      cases hstep
      exact (h.omitAttempt hfresh hphase).2
  | wake elapsed r hasQueued =>
    cases hphase : s.phase <;>
      simp only [Recovery.step, hphase, reduceCtorEq] at hstep
    case sleeping a toolResults =>
      cases hstep
      exact h.moves (State.moves_wake hgood hfresh)
        fun b hb => State.mem_pending_last (State.pending_wake hb)
  | compacted outcome hasQueued =>
    cases hphase : s.phase <;>
      simp only [Recovery.step, hphase, reduceCtorEq] at hstep
    case compacting reason willRetry preflight =>
      cases hstep
      exact h.moves (State.moves_compacted hgood hfresh)
        fun b hb => State.mem_pending_last (State.pending_compacted hb)
  | beforeSettle continues =>
    cases hphase : s.phase <;>
      simp only [Recovery.step, hphase, reduceCtorEq] at hstep
    case beforeSettle =>
      cases hstep
      refine h.moves (State.moves_withPhase hgood _) fun a ha => ?_
      refine State.mem_pending_last ?_
      split at ha <;> simpa [Phase.attempt?] using ha
  | resume =>
    cases hphase : s.phase <;>
      simp only [Recovery.step, hphase, reduceCtorEq] at hstep
    case continuing =>
      cases hstep
      refine h.moves (State.moves_withPhase hgood _) fun a ha => ?_
      exact State.mem_pending_last (by simpa [Phase.attempt?] using ha)
  | throw =>
    simp only [Recovery.step] at hstep
    split at hstep <;> cases hstep
    refine h.moves (State.moves_withPhase hgood _) fun a ha => ?_
    exact State.mem_pending_last (by simpa [Phase.attempt?] using ha)
  | settle =>
    cases hphase : s.phase <;>
      simp only [Recovery.step, hphase, reduceCtorEq] at hstep
    case closing =>
      cases hstep
      generalize hs₁ :
        (if s.agentRunAbortRequested then s.finishCancelledRetry else s) = s₁
      have hmoves : Moves s s₁ := by
        rw [← hs₁]
        split
        · exact State.moves_finishCancelledRetry hgood
        · exact .refl hgood
      have hlast : s₁.lastAssistantMessage = s.lastAssistantMessage := by
        rw [← hs₁]
        split
        · exact State.pending_finishCancelledRetry s
        · rfl
      have hsettled := hmoves.trans (State.moves_emit hmoves.manager.good .agentSettled)
      refine h.moves (hsettled.trans (State.moves_withPhase hsettled.manager.good _)) fun a ha => ?_
      refine State.mem_pending_last ?_
      simpa [State.emit, Phase.attempt?, hlast] using ha
  | abort =>
    have hmoves : Moves s { s with agentRunAbortRequested := true } :=
      (Moves.refl hgood).congr rfl rfl rfl rfl
    simp only [Recovery.step] at hstep
    split at hstep <;> cases hstep
    · exact h
    · exact h
    · exact h.moves hmoves fun a ha => ha
  | write op =>
    simp only [Recovery.step] at hstep
    split at hstep <;> cases hstep
    refine h.moves ⟨extends_perform hgood hfresh horderly, [], by simp⟩
      fun a ha => ha

end Context

/-- A session before its first prompt. -/
structure Begins (s : State) : Prop where
  good : Good s.manager
  phase : s.phase = .idle
  retryAttempt : s.retryAttempt = 0
  lastAssistantMessage : s.lastAssistantMessage = none
  log : s.log = []

theorem Begins.streakAt {s : State} (h : Begins s) : StreakAt s := by
  unfold StreakAt
  rw [h.phase]
  refine ⟨⟨none, ?_, fun a ha => ?_⟩, h.retryAttempt⟩
  · simp [State.view, h.log, h.retryAttempt, scan]
  · cases h.lastAssistantMessage.symm.trans ha

theorem Begins.context {s : State} (h : Begins s) : Context s where
  good := h.good
  hidden := by simp [h.log, retried]
  recorded := h.log ▸ Recorded.nil
  stored := by simp [Stored, h.log]
  pending := by simp [State.pending, h.lastAssistantMessage, h.phase, Phase.attempt?]

theorem StreakAt.scan_isSome {s : State} (h : StreakAt s) : (scan s.log).isSome = true := by
  have hread : ∀ v : RetryView, InStep v → v.scan.isSome = true := by
    rintro v ⟨last, hscan, -⟩
    simp [hscan]
  by_cases hphase : ∀ a toolResults, s.phase ≠ .omitting a toolResults
  · exact hread s.view (inStep_of_streakAt h hphase)
  · simp only [not_forall, Decidable.not_not] at hphase
    obtain ⟨a, toolResults, hphase⟩ := hphase
    unfold StreakAt at h
    rw [hphase] at h
    simp [h.1]

section

variable {patterns : ErrorPatterns} {env : Environment} {s : State}
  {migrate : List FileEntry → List FileEntry × Bool}

/-- **Every orderly run keeps the promise of its retries.** -/
theorem retries_proper (hfresh : env.Fresh)
    (h : Run Begins (fun s act => step patterns migrate s ⟨env, act⟩)
      (fun s act => orderly s act = true) s) : Proper s := by
  have hinv : StreakAt s ∧ Context s := by
    refine h.invariant (p := fun s => StreakAt s ∧ Context s)
      (fun s hs => ⟨hs.streakAt, hs.context⟩) ?_
    rintro s act s' ⟨hstreak, hcontext⟩ horderly hstep
    refine ⟨streakAt_step hstreak horderly (fun a toolResults hphase => ?_) hstep,
      hcontext.step hfresh horderly hstep⟩
    exact (hcontext.omitAttempt hfresh hphase).1
  exact ⟨hinv.1.scan_isSome, hinv.2.recorded, hinv.2.stored⟩

end

theorem begins_sampleStart : Begins sampleStart where
  good := ⟨synced_blank false, by
    refine ⟨nodup_nil, ⟨fun _ => 0, ?_⟩, ?_⟩ <;> intro a ha <;> cases ha⟩
  phase := rfl
  retryAttempt := rfl
  lastAssistantMessage := rfl
  log := rfl

/-- An error, its retry, and a call that ends with this reason. -/
def retriedOnce (stopReason : StopReason) (aborts : List Act) : List Act :=
  [Act.prompt [.user (some (.text "question")) 1]]
    ++ sampleFailure "overloaded" ++ sampleRetry ++ [Act.request] ++ aborts
    ++ [ .complete (sampleCompletion stopReason none), .endTurn false .none false,
      .post sampleSettings sampleReadings false ]

theorem retries_proper_sample :
    Proper (Run.afterAll (fun s act => step samplePatterns (·, false) s ⟨growingEnvironment, act⟩)
      sampleStart (retriedOnce .stop [] ++ [.beforeSettle false, .settle])) :=
  retries_proper (fun keys => SessionManager.longerId_fresh keys)
    (.of_check (.init begins_sampleStart) (by decide +kernel))

/-- **An aborted retry is reported as a success.** -/
theorem retries_improper :
    ∃ s, Run Begins (fun s act => step samplePatterns (·, false) s ⟨growingEnvironment, act⟩)
        (fun _ _ => True) s ∧ ¬ Proper s := by
  refine ⟨Run.afterAll (fun s act => step samplePatterns (·, false) s ⟨growingEnvironment, act⟩)
      sampleStart (retriedOnce .aborted [.abort] ++ [.settle]),
    .of_check (.init begins_sampleStart) (by decide +kernel), fun h => ?_⟩
  have hread := h.streaks
  revert hread
  decide +kernel

end ReflectivePi.Recovery
