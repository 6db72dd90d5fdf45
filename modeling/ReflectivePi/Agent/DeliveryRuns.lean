import ReflectivePi.Agent.Delivery

/-!
# Agent — DeliveryRuns

Every step of an agent run keeps the ledger of its turn in order, so in every
run each message that is handed out is delivered once. The order is that of the
turn: what a hook prepared, then queued messages, then notes on the context.
-/

namespace ReflectivePi.Agent

open List

variable {s s' : RunState}

/-! ## Single events -/

section

variable (events : List RunEvent)

include events

theorem ledger_messageStart (message : AgentMessage) :
    ledger (events ++ [.messageStart message]) = { ledger events with
          lifecycle := (ledger events).lifecycle ++ [.messageStart message] } := by
  simp [ledger]

theorem ledger_messageEnd (message : AgentMessage) :
    ledger (events ++ [.messageEnd message]) = { ledger events with
          lifecycle := (ledger events).lifecycle ++ [.messageEnd message] } := by
  simp [ledger]

theorem ledger_appended (message : AgentMessage) :
    ledger (events ++ [.messageEnd message, .appended message]) = { ledger events with
          lifecycle := (ledger events).lifecycle ++ [.messageEnd message]
          appended := (ledger events).appended ++ [message] } := by
  simp [ledger]

theorem ledger_prepared (messages : List AgentMessage) :
    ledger (events ++ [.prepared messages])
      = { ledger events with prepared := (ledger events).prepared ++ messages } := by
  simp [ledger]

theorem ledger_contextStatus (messages : List AgentMessage) :
    ledger (events ++ [.contextStatus messages])
      = { ledger events with status := (ledger events).status ++ messages } := by
  simp [ledger]

theorem ledger_followUps (messages : List AgentMessage) :
    ledger (events ++ [.drained .followUp messages])
      = { ledger events with followUps := (ledger events).followUps ++ messages } := by
  simp [ledger]

theorem ledger_quiet {event : RunEvent}
    (h : ledger [event] = ledger []) : ledger (events ++ [event]) = ledger events := by
  rw [ledger_append, h, Ledger.add_empty]

end

theorem lifecycles_concat (messages : List AgentMessage) (message : AgentMessage) :
    lifecycles (messages ++ [message])
      = lifecycles messages ++ [.messageStart message] ++ [.messageEnd message] := by
  simp [lifecycles]

theorem quiet_single {event : RunEvent}
    (h : ∀ source, event.queuedTo source = [] ∧ event.drainedFrom source = []) : Quiet [event] := by
  intro source
  simp only [flatMap_cons, flatMap_nil, append_nil]
  exact h source

theorem queue_eq (hsteering : s'.steeringQueue = s.steeringQueue)
    (hfollowUp : s'.followUpQueue = s.followUpQueue) (source : Source) :
    s'.queue source = s.queue source := by
  cases source with
  | steering => exact hsteering
  | followUp => exact hfollowUp

theorem Books.same (h : Books s) (hturns : s'.turns = s.turns)
    (hevents : s'.events = s.events) (horigin : s'.origin = s.origin)
    (hqueue : ∀ source, s'.queue source = s.queue source) : Books s' :=
  h.emit (fun _ => ⟨rfl, rfl⟩) hturns (hevents.trans (append_nil _).symm) horigin hqueue

variable {preparedMessages : List AgentMessage} {l : Ledger}

theorem Gathered.congr (h : Gathered s preparedMessages l)
    (hpending : s'.pendingMessages = s.pendingMessages)
    (hstatus : s'.pendingContextStatus = s.pendingContextStatus)
    (hcompleted : s'.lastCompletedTurn = s.lastCompletedTurn) : Gathered s' preparedMessages l := by
  refine ⟨h.prompts, h.prepared, ?_, ?_, h.lifecycle, h.appended, ?_⟩
  · rw [hpending, h.queue]
  · rw [hstatus, h.status]
  · rw [hcompleted, h.completed]

theorem Gathered.expected (h : Gathered s preparedMessages l) :
    l.expected = preparedMessages ++ (s.pendingMessages ++ s.pendingContextStatus) := by
  rw [Ledger.expected, h.prompts, h.prepared, h.status, ← h.queue]
  simp

theorem startTurn_inv (h : Books s) (hg : Gathered s preparedMessages (ledger s.events)) :
    RunInv (s.startTurn preparedMessages) := by
  have hquiet : Quiet [RunEvent.turnStart] := quiet_single fun _ => ⟨rfl, rfl⟩
  refine ⟨h.emit hquiet rfl rfl rfl (queue_eq rfl rfl), ?_, ?_, rfl⟩
  · show Declared (ledger (s.events ++ [.turnStart])).expected
      ((ledger (s.events ++ [.turnStart])).appended ++ declareToolChanges s.context
        (preparedMessages ++ (s.pendingMessages ++ s.pendingContextStatus)))
    rw [ledger_quiet _ rfl, hg.appended, hg.expected, nil_append]
    exact declared_declareToolChanges _ _
  · show (ledger (s.events ++ [.turnStart])).lifecycle
      = lifecycles (ledger (s.events ++ [.turnStart])).appended
    rw [ledger_quiet _ rfl, hg.lifecycle, hg.appended]
    rfl

theorem whileLoop_inv (h : Books s) (hg : Gathered s [] (ledger s.events))
    (hstop : s.hasMoreToolCalls = false → s.pendingMessages = [] →
      s.pendingContextStatus = []) : RunInv s.whileLoop := by
  have hkeep (point : Point) : Gathered { s with point := point } [] (ledger s.events) :=
    hg.congr rfl rfl rfl
  rw [RunState.whileLoop]
  split
  · split
    · exact ⟨h.same rfl rfl rfl (queue_eq rfl rfl), hkeep _⟩
    · rename_i hnone
      have hsome := hg.completed
      rw [hnone] at hsome
      cases hsome
  · rename_i hcond
    simp only [not_or, not_not, Bool.not_eq_true] at hcond
    exact ⟨h.same rfl rfl rfl (queue_eq rfl rfl), hkeep _, hcond.2, hstop hcond.1 hcond.2⟩

/-! ## Steps -/

theorem Opening.enqueue (h : Opening s l) (source : Source) (message : AgentMessage) :
    Opening (s.enqueue source message) l := by
  cases source <;> exact
    ⟨h.declared, h.prepared, h.status, h.pendingStatus, h.completed, h.followUps, h.steering⟩

theorem Gathered.enqueue (h : Gathered s preparedMessages l) (source : Source)
    (message : AgentMessage) : Gathered (s.enqueue source message) preparedMessages l := by
  cases source <;> exact h.congr rfl rfl rfl

theorem Point.Holds.enqueue {point : Point} (source : Source) (message : AgentMessage)
    (h : point.Holds s l) : point.Holds (s.enqueue source message) l := by
  cases point with
  | prompting rest => exact ⟨h.1.enqueue source message, h.2⟩
  | promptEnding message' rest => exact ⟨h.1.enqueue source message, h.2⟩
  | initialPoll => exact ⟨h.1.enqueue source message, h.2⟩
  | preparing => exact Gathered.enqueue h source message
  | repolling preparedMessages =>
    cases source <;> exact ⟨h.1.congr rfl rfl rfl, h.2⟩
  | statusPoll turn => cases source <;> exact ⟨h.1.congr rfl rfl rfl, h.2⟩
  | finishing turn => cases source <;> exact ⟨⟨h.1.1.congr rfl rfl rfl, h.1.2⟩, h.2⟩
  | steeringPoll turn => cases source <;> exact ⟨⟨h.1.1.congr rfl rfl rfl, h.1.2⟩, h.2⟩
  | followUpPoll => cases source <;> exact ⟨h.1.congr rfl rfl rfl, h.2⟩
  | _ => cases source <;> exact h

theorem RunInv.enqueue (h : RunInv s) (source : Source) (message : AgentMessage) :
    RunInv (s.enqueue source message) := by
  have hpoint : (s.enqueue source message).point = s.point := by cases source <;> rfl
  refine ⟨h.books.enqueue source message, ?_⟩
  have hledger : ledger (s.enqueue source message).events = ledger s.events := by
    rw [(enqueue_fields message).2.1]
    exact ledger_quiet _ rfl
  rw [hpoint, hledger]
  exact h.point.enqueue source message

theorem RunInv.initialPoll (h : RunInv s) (hp : s.point = .initialPoll) :
    RunInv { s.getSteeringMessages with hasMoreToolCalls := true }.whileLoop := by
  obtain ⟨hopening, hlifecycle⟩ : Point.initialPoll.Holds s (ledger s.events) := hp ▸ h.point
  obtain ⟨hstatus, hcompleted, -, -⟩ := getSteeringMessages_fields s
  have hbooks := h.books.getSteeringMessages hopening.steering hopening.followUps
  have hloop : { s.getSteeringMessages with hasMoreToolCalls := true }.whileLoop
      = { s.getSteeringMessages with hasMoreToolCalls := true }.deliver [] := by
    rw [RunState.whileLoop, if_pos (.inl rfl)]
    split
    · rename_i turn hturn
      rw [hcompleted.trans hopening.completed] at hturn
      cases hturn
    · rfl
  rw [hloop]
  refine ⟨hbooks.same rfl rfl rfl (queue_eq rfl rfl), ?_, ?_, ?_⟩
  · show Declared (ledger s.getSteeringMessages.events).expected
      ((ledger s.getSteeringMessages.events).appended ++ declareToolChanges _
        ([] ++ s.getSteeringMessages.pendingMessages))
    rw [ledger_getSteeringMessages]
    have hexpected : { ledger s.events with
          steering := (ledger s.events).steering ++ s.getSteeringMessages.pendingMessages }.expected
        = (ledger s.events).expected ++ s.getSteeringMessages.pendingMessages := by
      simp only [Ledger.expected, hopening.status, append_nil, append_assoc]
    rw [hexpected]
    exact hopening.declared.append (declared_declareToolChanges _ _)
  · show (ledger s.getSteeringMessages.events).lifecycle
      = lifecycles (ledger s.getSteeringMessages.events).appended
    rw [ledger_getSteeringMessages]
    exact hlifecycle
  · exact hstatus.trans hopening.pendingStatus

theorem RunInv.repoll (h : RunInv s) (hp : s.point = .repolling preparedMessages) :
    RunInv (s.getSteeringMessages.startTurn preparedMessages) := by
  obtain ⟨hg, hpending⟩ : Point.Holds s (ledger s.events) (.repolling preparedMessages) :=
    hp ▸ h.point
  obtain ⟨hstatus, hcompleted, -, -⟩ := getSteeringMessages_fields s
  have hnone := hg.queue.trans hpending
  obtain ⟨hfollowUps, hsteering⟩ := List.append_eq_nil_iff.mp hnone
  refine startTurn_inv (h.books.getSteeringMessages (.inl hsteering) (.inl hfollowUps)) ?_
  rw [ledger_getSteeringMessages]
  refine ⟨hg.prompts, hg.prepared, ?_, ?_, hg.lifecycle, hg.appended, ?_⟩
  · show (ledger s.events).followUps ++ ((ledger s.events).steering ++ _) = _
    rw [hfollowUps, hsteering]
    rfl
  · rw [hstatus]
    exact hg.status
  · rw [hcompleted]
    exact hg.completed

theorem RunInv.steeringPoll (h : RunInv s) {turn : CompletedTurn}
    (hp : s.point = .steeringPoll turn) :
    RunInv { s.getSteeringMessages with point := .statusPoll turn } := by
  obtain ⟨⟨hg, hpending, hstatus⟩, hcontinues⟩ :
    Point.Holds s (ledger s.events) (.steeringPoll turn) := hp ▸ h.point
  obtain ⟨hstatus', hcompleted, hmore, -⟩ := getSteeringMessages_fields s
  obtain ⟨hfollowUps, hsteering⟩ := List.append_eq_nil_iff.mp (hg.queue.trans hpending)
  refine ⟨(h.books.getSteeringMessages (.inl hsteering) (.inl hfollowUps)).same rfl rfl rfl
    (queue_eq rfl rfl), ?_, hstatus'.trans hstatus, ?_⟩
  · show Gathered _ [] (ledger s.getSteeringMessages.events)
    rw [ledger_getSteeringMessages]
    refine ⟨hg.prompts, hg.prepared, ?_, ?_, hg.lifecycle, hg.appended, ?_⟩
    · show (ledger s.events).followUps ++ ((ledger s.events).steering ++ _) = _
      rw [hfollowUps, hsteering]
      rfl
    · exact hg.status.trans hstatus'.symm
    · exact (congrArg Option.isSome hcompleted).trans hg.completed
  · exact hcontinues.imp_left hmore.trans

theorem RunInv.followUpPoll (h : RunInv s) (hp : s.point = .followUpPoll)
    (hs : s.next = some s') : RunInv s' := by
  obtain ⟨hg, hpending, hstatus⟩ : Point.Holds s (ledger s.events) .followUpPoll := hp ▸ h.point
  obtain ⟨hfollowUps, hsteering⟩ := List.append_eq_nil_iff.mp (hg.queue.trans hpending)
  have hbooks : Books (s.drainQueue .followUp) := by
    refine h.books.drainQueue hfollowUps fun source hne => .inl ?_
    cases source with
    | steering => exact hsteering
    | followUp => exact absurd rfl hne
  have hgathered : Gathered (s.drainQueue .followUp) [] (ledger (s.drainQueue .followUp).events) := by
    rw [(drainQueue_fields s .followUp).2.1, ledger_followUps]
    refine ⟨hg.prompts, hg.prepared, ?_, hg.status, hg.lifecycle, hg.appended, hg.completed⟩
    show ((ledger s.events).followUps ++ _) ++ (ledger s.events).steering = _
    rw [hfollowUps, hsteering, append_nil]
    rfl
  have hloop : RunInv { s.drainQueue .followUp with
      explicitContinuation := false, hasMoreToolCalls := true }.whileLoop :=
    whileLoop_inv (hbooks.same rfl rfl rfl (queue_eq rfl rfl)) (hgathered.congr rfl rfl rfl) nofun
  unfold RunState.next at hs
  rw [hp] at hs
  dsimp only at hs
  split at hs
  · cases hs
    exact hloop
  · rename_i hnone
    split at hs
    · cases hs
      exact hloop
    · cases hs
      have hempty : (ledger (s.drainQueue .followUp).events).expected = [] := by
        rw [hgathered.expected, not_not.mp hnone]
        exact hstatus
      refine ⟨hbooks.close (quiet_single fun _ => ⟨rfl, rfl⟩) rfl ⟨?_, ?_⟩ rfl rfl rfl
        (queue_eq rfl rfl), rfl⟩
      · rw [hempty, hgathered.appended]
        exact .nil
      · rw [hgathered.lifecycle, hgathered.appended]
        rfl

theorem RunInv.next (h : RunInv s) (hs : s.next = some s') : RunInv s' := by
  have hpoint := h.point
  have hb := h.books
  cases hp : s.point with
  | initialPoll =>
    rw [RunState.next, hp] at hs
    cases hs
    exact h.initialPoll hp
  | repolling preparedMessages =>
    rw [RunState.next, hp] at hs
    cases hs
    exact h.repoll hp
  | steeringPoll turn =>
    rw [RunState.next, hp] at hs
    cases hs
    exact h.steeringPoll hp
  | followUpPoll => exact h.followUpPoll hp hs
  | prompting rest =>
    rw [hp] at hpoint
    obtain ⟨ho, done, happended, hlifecycle⟩ := hpoint
    rw [RunState.next, hp] at hs
    cases rest with
    | nil =>
      cases hs
      rw [append_nil] at happended
      refine ⟨hb.same rfl rfl rfl (queue_eq rfl rfl), ?_, ?_⟩
      · exact ⟨ho.1, ho.2, ho.3, ho.4, ho.5, ho.6, ho.7⟩
      · exact hlifecycle.trans (congrArg lifecycles happended.symm)
    | cons message rest =>
      cases hs
      refine ⟨hb.emit (quiet_single fun _ => ⟨rfl, rfl⟩) rfl rfl rfl (queue_eq rfl rfl), ?_⟩
      show Point.Holds _ (ledger (s.events ++ [.messageStart message])) (.promptEnding message rest)
      rw [ledger_messageStart]
      refine ⟨⟨ho.1, ho.2, ho.3, ho.4, ho.5, ho.6, ho.7⟩, done, happended, ?_⟩
      exact congrArg (· ++ _) hlifecycle
  | promptEnding message rest =>
    rw [hp] at hpoint
    obtain ⟨ho, done, happended, hlifecycle⟩ := hpoint
    rw [RunState.next, hp] at hs
    cases hs
    refine ⟨hb.emit (quiet_single fun _ => ⟨rfl, rfl⟩) rfl rfl rfl (queue_eq rfl rfl), ?_⟩
    show Point.Holds _ (ledger (s.events ++ [.messageEnd message])) (.prompting rest)
    rw [ledger_messageEnd]
    refine ⟨⟨ho.1, ho.2, ho.3, ho.4, ho.5, ho.6, ho.7⟩, done ++ [message], ?_, ?_⟩
    · rw [happended, append_assoc]
      rfl
    · rw [lifecycles_concat, ← hlifecycle]
  | delivering rest =>
    rw [hp] at hpoint
    obtain ⟨hdeclared, hlifecycle, hstatus⟩ := hpoint
    rw [RunState.next, hp] at hs
    cases rest with
    | nil =>
      cases hs
      rw [append_nil] at hdeclared
      exact ⟨hb.same rfl rfl rfl (queue_eq rfl rfl), ⟨hdeclared, hlifecycle⟩, rfl, hstatus⟩
    | cons message rest =>
      cases hs
      refine ⟨hb.emit (quiet_single fun _ => ⟨rfl, rfl⟩) rfl rfl rfl (queue_eq rfl rfl), ?_⟩
      show Point.Holds _ (ledger (s.events ++ [.messageStart message]))
        (.messageEnding message rest)
      rw [ledger_messageStart]
      exact ⟨hdeclared, congrArg (· ++ _) hlifecycle, hstatus⟩
  | messageEnding message rest =>
    rw [hp] at hpoint
    obtain ⟨hdeclared, hlifecycle, hstatus⟩ := hpoint
    rw [RunState.next, hp] at hs
    cases hs
    have hquiet : Quiet [RunEvent.messageEnd message, .appended message] :=
      fun _ => ⟨rfl, rfl⟩
    refine ⟨hb.emit hquiet rfl rfl rfl (queue_eq rfl rfl), ?_⟩
    show Point.Holds _ (ledger (s.events ++ [.messageEnd message, .appended message]))
      (.delivering rest)
    rw [ledger_appended]
    refine ⟨?_, ?_, hstatus⟩
    · show Declared (ledger s.events).expected ((ledger s.events).appended ++ [message] ++ rest)
      rw [append_assoc]
      exact hdeclared
    · show (ledger s.events).lifecycle ++ _ = lifecycles ((ledger s.events).appended ++ _)
      rw [lifecycles_concat, hlifecycle]
  | _ => rw [RunState.next, hp] at hs; cases hs

theorem RunInv.prepareNextTurn (h : RunInv s) (hp : s.point = .preparing)
    (update : AgentLoopTurnUpdate) : RunInv (s.prepareNextTurn update) := by
  have hg : Gathered s [] (ledger s.events) := by
    have hpoint := h.point
    rw [hp] at hpoint
    exact hpoint
  have hbooks : Books { s.emit [.prepared update.messages] with
      context := update.context.getD s.context } :=
    h.books.emit (quiet_single fun _ => ⟨rfl, rfl⟩) rfl rfl rfl (queue_eq rfl rfl)
  have hgathered : Gathered { s.emit [.prepared update.messages] with
      context := update.context.getD s.context } update.messages
      (ledger (s.events ++ [.prepared update.messages])) := by
    rw [ledger_prepared]
    refine ⟨hg.prompts, ?_, hg.queue, hg.status, hg.lifecycle, hg.appended, hg.completed⟩
    exact congrArg (· ++ update.messages) hg.prepared
  rw [RunState.prepareNextTurn]
  split
  · rename_i hpending
    exact ⟨hbooks.same rfl rfl rfl (queue_eq rfl rfl), hgathered.congr rfl rfl rfl, hpending⟩
  · exact startTurn_inv hbooks hgathered

theorem idle_of_empty (hpending : s.pendingMessages = [])
    (hstatus : s.pendingContextStatus = []) (hcompleted : s.lastCompletedTurn.isSome = true) :
    Idle s (ledger []) :=
  ⟨⟨rfl, rfl, hpending.symm, hstatus.symm, rfl, rfl, hcompleted⟩, hpending, hstatus⟩

theorem continues_executed (message : AssistantMessage) (batch : Batch) :
    Continues (s.executed message batch) ⟨message, batch.messages, batch.terminate⟩ := by
  show (!batch.terminate) = true ∨ _ ∨ batch.terminate = true
  cases batch.terminate with
  | true => exact .inr (.inr rfl)
  | false => exact .inl rfl

theorem RunInv.respond (h : RunInv s) (hp : s.point = .responding)
    (message : AssistantMessage) : RunInv (s.respond message) := by
  obtain ⟨hdelivered, hpending, hstatus⟩ : Point.responding.Holds s (ledger s.events) :=
    hp ▸ h.point
  have hclose {s' : RunState} (hturns : s'.turns = s.turns ++ [s.events ++ [.response message]])
      (hevents : s'.events = []) (horigin : s'.origin = s.origin)
      (hsteering : s'.steeringQueue = s.steeringQueue)
      (hfollowUp : s'.followUpQueue = s.followUpQueue) : Books s' :=
    h.books.close (quiet_single fun _ => ⟨rfl, rfl⟩) rfl hdelivered hturns hevents horigin
      (queue_eq hsteering hfollowUp)
  have hidle {s' : RunState} (hpending' : s'.pendingMessages = s.pendingMessages)
      (hstatus' : s'.pendingContextStatus = s.pendingContextStatus)
      (hcompleted : s'.lastCompletedTurn.isSome = true) : Idle s' (ledger []) :=
    idle_of_empty (hpending'.trans hpending) (hstatus'.trans hstatus) hcompleted
  rw [RunState.respond]
  split
  · exact ⟨hclose rfl rfl rfl rfl rfl, hidle rfl rfl rfl, .inr (.inl rfl)⟩
  · split
    · exact ⟨hclose rfl rfl rfl rfl rfl, hidle rfl rfl rfl, .inr (.inl rfl)⟩
    · split
      · exact ⟨hclose rfl rfl rfl rfl rfl, hidle rfl rfl rfl, continues_executed _ _⟩
      · exact ⟨hclose rfl rfl rfl rfl rfl, rfl, hpending, hstatus⟩

theorem RunInv.executeToolCalls (h : RunInv s) {message : AssistantMessage}
    (hp : s.point = .executing message) (batch : Batch) : RunInv (s.executed message batch) := by
  obtain ⟨hledger, hpending, hstatus⟩ :
    Point.Holds s (ledger s.events) (.executing message) := hp ▸ h.point
  refine ⟨h.books.same rfl rfl rfl (queue_eq rfl rfl), ?_, continues_executed _ _⟩
  show Idle _ (ledger s.events)
  rw [hledger]
  exact idle_of_empty hpending hstatus rfl

theorem RunInv.finishTurn (h : RunInv s) {turn : CompletedTurn}
    (hp : s.point = .finishing turn) (decision : Option TurnDecision) :
    RunInv (s.finishTurn turn decision) := by
  obtain ⟨⟨hg, hpending, hstatus⟩, hcontinues⟩ :
    Point.Holds s (ledger s.events) (.finishing turn) := hp ▸ h.point
  have hbooks : Books (s.emit [.turnEnd]) :=
    h.books.emit (quiet_single fun _ => ⟨rfl, rfl⟩) rfl rfl rfl (queue_eq rfl rfl)
  have hledger : ledger (s.emit [.turnEnd]).events = ledger s.events := ledger_quiet _ rfl
  have hfinish : RunInv (s.emit [.turnEnd]).finish := by
    refine ⟨hbooks.close (quiet_single fun _ => ⟨rfl, rfl⟩) rfl ?_ rfl rfl rfl
      (queue_eq rfl rfl), rfl⟩
    rw [hledger]
    refine ⟨?_, ?_⟩
    · rw [hg.expected, hpending, hstatus, hg.appended]
      exact .nil
    · rw [hg.lifecycle, hg.appended]
      rfl
  rw [RunState.finishTurn]
  split
  · exact hfinish
  · split
    · exact hfinish
    · refine ⟨hbooks.same rfl rfl rfl (queue_eq rfl rfl), ?_⟩
      show Point.Holds _ (ledger (s.emit [.turnEnd]).events) (.steeringPoll turn)
      rw [hledger]
      exact ⟨⟨hg.congr rfl rfl rfl, hpending, hstatus⟩, hcontinues⟩

/-- Notes are handed out only for a turn that is followed by another one. -/
theorem RunInv.getContextStatusMessages (h : RunInv s) {turn : CompletedTurn}
    (hp : s.point = .statusPoll turn) {messages : List AgentMessage}
    (hcontract : StatusContract s (.getContextStatusMessages messages)) :
    RunInv (s.getContextStatusMessages messages) := by
  obtain ⟨hg, hstatus, hcontinues⟩ : Point.Holds s (ledger s.events) (.statusPoll turn) :=
    hp ▸ h.point
  have hkept : (if messages ≠ [] then messages else s.pendingContextStatus) = messages := by
    split
    · rfl
    · rename_i hnone
      rw [hstatus, not_not.mp hnone]
  refine whileLoop_inv ?_ ?_ fun hmore _ => ?_
  · exact h.books.emit (quiet_single fun _ => ⟨rfl, rfl⟩) rfl rfl rfl (queue_eq rfl rfl)
  · show Gathered _ [] (ledger (s.events ++ [.contextStatus messages]))
    rw [ledger_contextStatus]
    refine ⟨hg.prompts, hg.prepared, hg.queue, ?_, hg.lifecycle, hg.appended, hg.completed⟩
    show (ledger s.events).status ++ messages = if messages ≠ [] then messages else _
    rw [hkept, hg.status, hstatus]
    rfl
  · show (if messages ≠ [] then messages else s.pendingContextStatus) = []
    rw [hkept]
    refine hcontract ?_
    have hterminal := hcontinues.resolve_left (Bool.not_eq_true _ ▸ hmore)
    rw [hp, Point.isTerminal, Bool.or_eq_true, decide_eq_true_eq]
    exact hterminal

theorem RunInv.step {label : RunLabel} (h : RunInv s) (hcontract : StatusContract s label)
    (hs : s.step label = some s') : RunInv s' := by
  cases label with
  | steer message =>
    cases hs
    exact h.enqueue .steering message
  | followUp message =>
    cases hs
    exact h.enqueue .followUp message
  | next => exact h.next hs
  | prepareNextTurn update =>
    rw [RunState.step] at hs
    split at hs
    · rename_i hp
      cases hs
      exact h.prepareNextTurn hp update
    · cases hs
  | prepareRequest context =>
    rw [RunState.step] at hs
    split at hs
    · rename_i hp
      cases hs
      have hpoint := h.point
      rw [hp] at hpoint
      exact ⟨h.books.same rfl rfl rfl (queue_eq rfl rfl), hpoint⟩
    · cases hs
  | respond message =>
    rw [RunState.step] at hs
    split at hs
    · rename_i hp
      cases hs
      exact h.respond hp message
    · cases hs
  | executeToolCalls batch =>
    rw [RunState.step] at hs
    split at hs
    · rename_i message hp
      cases hs
      exact h.executeToolCalls hp batch
    · cases hs
  | finishTurn decision =>
    rw [RunState.step] at hs
    split at hs
    · rename_i turn hp
      cases hs
      exact h.finishTurn hp decision
    · cases hs
  | getContextStatusMessages messages =>
    rw [RunState.step] at hs
    split at hs
    · rename_i turn hp
      cases hs
      exact h.getContextStatusMessages hp hcontract
    · cases hs

/-! ## Starting -/

theorem ledger_appendedAll (messages : List AgentMessage) :
    ledger (messages.map .appended) = { ledger [] with appended := messages } := by
  simp [ledger, flatMap_map]

theorem ledger_queuedEvents (agent : AgentState) : ledger agent.queuedEvents = ledger [] := by
  simp [ledger, AgentState.queuedEvents, flatMap_map]

def AgentState.queue (agent : AgentState) : Source → PendingMessageQueue
  | .steering => agent.steeringQueue
  | .followUp => agent.followUpQueue

theorem queuedEvents_queued (agent : AgentState) (source : Source) :
    agent.queuedEvents.flatMap (RunEvent.queuedTo source) = (agent.queue source).messages := by
  cases source <;> simp [AgentState.queuedEvents, AgentState.queue, flatMap_map]

theorem queuedEvents_drained (agent : AgentState) (source : Source) :
    agent.queuedEvents.flatMap (RunEvent.drainedFrom source) = [] := by
  simp [AgentState.queuedEvents, flatMap_map]

/-- What a run with prompts starts from: they are all that is handed out. -/
structure Handed (agent agent' : AgentState) (origin : Origin) (handed : RunEvent)
    (prompts : List AgentMessage) (skipInitialSteeringPoll : Bool) : Prop where
  expected : (ledger [handed]).expected = prompts
  prepared : (ledger [handed]).prepared = []
  status : (ledger [handed]).status = []
  lifecycle : (ledger [handed]).lifecycle = []
  appended : (ledger [handed]).appended = []
  queued : ∀ source, handed.queuedTo source = []
  queues : ∀ source, (agent.queue source).messages
    = handed.drainedFrom source ++ (agent'.queue source).messages
  followUps : (ledger [handed]).followUps = [] ∨ origin = .queue .followUp
  steering : (ledger [handed]).steering = [] ∨ skipInitialSteeringPoll = true
  bound : ∀ source, (agent'.queue source).mode = .oneAtATime →
    ((ledger [handed]).queue source).length ≤ 1

theorem flatMap_start (f : RunEvent → List AgentMessage) (hturn : f .turnStart = [])
    (happended : ∀ message, f (.appended message) = []) (events : List RunEvent)
    (handed : RunEvent) (messages : List AgentMessage) :
    (events ++ handed :: (messages.map .appended ++ [.turnStart])).flatMap f
      = events.flatMap f ++ f handed := by
  simp [flatMap_map, hturn, happended]

theorem runAgentLoop_inv {agent agent' : AgentState} {origin : Origin} {handed : RunEvent}
    {prompts : List AgentMessage} {skipInitialSteeringPoll : Bool}
    (h : Handed agent agent' origin handed prompts skipInitialSteeringPoll) :
    RunInv (agent'.runAgentLoop origin handed prompts agent.queuedEvents
      skipInitialSteeringPoll) := by
  have hqueue (source : Source) : (agent'.runAgentLoop origin handed prompts
      agent.queuedEvents skipInitialSteeringPoll).queue source = agent'.queue source := by
    cases source <;> rfl
  have hledger : ledger (agent'.runAgentLoop origin handed prompts agent.queuedEvents
      skipInitialSteeringPoll).events
      = { ledger [handed] with
          appended := declareToolChanges ⟨agent'.messages, agent'.tools⟩ prompts } := by
    show ledger (agent.queuedEvents ++ ([handed] ++ (List.map RunEvent.appended _
      ++ [.turnStart]))) = _
    rw [ledger_append, ledger_queuedEvents, ledger_append, ledger_quiet _ rfl, ledger_appendedAll]
    have happended := h.appended
    simp only [Ledger.add, ledger, flatMap_nil, append_nil, nil_append] at happended ⊢
    rw [happended]
    rfl
  refine ⟨⟨fun _ _ hturn => (by cases hturn), fun source => ?_, ?_⟩, ?_⟩
  · rw [Accounted, hqueue source]
    show List.flatMap _ (agent.queuedEvents ++ handed :: _) =
      List.flatMap _ (agent.queuedEvents ++ handed :: _) ++ _
    rw [flatMap_start _ rfl fun _ => rfl, flatMap_start _ rfl fun _ => rfl,
      queuedEvents_queued, queuedEvents_drained, h.queued source, h.queues source,
      append_nil, nil_append]
  · rw [hledger]
    refine ⟨?_, fun source hmode => ?_⟩
    · rcases h.followUps with hnone | horigin
      · exact .inl hnone
      · exact .inr (.inr ⟨rfl, horigin⟩)
    · rw [hqueue source] at hmode
      cases source with
      | steering => exact h.bound .steering hmode
      | followUp => exact h.bound .followUp hmode
  · rw [hledger]
    refine ⟨⟨?_, h.prepared, h.status, rfl, rfl, ?_, ?_⟩, [], rfl, h.lifecycle⟩
    · show Declared (ledger [handed]).expected _
      rw [h.expected]
      exact declared_declareToolChanges _ _
    · exact h.followUps.imp_right fun horigin => ⟨rfl, horigin⟩
    · exact h.steering

theorem prompt_inv (agent : AgentState) (messages : List AgentMessage) :
    RunInv (agent.prompt messages) := by
  refine runAgentLoop_inv ⟨?_, rfl, rfl, rfl, rfl, fun _ => rfl, fun source => rfl,
    .inl rfl, .inl rfl, fun source _ => ?_⟩
  · simp [ledger, Ledger.expected]
  · cases source <;> exact Nat.zero_le 1

theorem runAgentLoopContinue_inv (agent : AgentState) : RunInv agent.runAgentLoopContinue := by
  have hledger : ledger agent.runAgentLoopContinue.events = ledger [] := by
    show ledger (agent.queuedEvents ++ [.turnStart]) = _
    rw [ledger_quiet _ rfl, ledger_queuedEvents]
  refine ⟨⟨fun _ _ hturn => (by cases hturn), fun source => ?_, ?_⟩, ?_⟩
  · show (agent.queuedEvents ++ [RunEvent.turnStart]).flatMap _
      = (agent.queuedEvents ++ [RunEvent.turnStart]).flatMap _ ++ _
    rw [flatMap_append, flatMap_append, queuedEvents_queued, queuedEvents_drained]
    cases source <;> simp [AgentState.queue, RunState.queue, AgentState.runAgentLoopContinue]
  · rw [hledger]
    refine ⟨.inl rfl, fun source _ => ?_⟩
    cases source <;> exact Nat.zero_le 1
  · rw [hledger]
    exact ⟨⟨.nil, rfl, rfl, rfl, rfl, .inl rfl, .inl rfl⟩, rfl⟩

theorem drained_inv (agent : AgentState) :
    RunInv ({ agent with steeringQueue := agent.steeringQueue.drain.2 }.runAgentLoop
      (.queue .steering) (.drained .steering agent.steeringQueue.drain.1)
      agent.steeringQueue.drain.1 agent.queuedEvents true) := by
  obtain ⟨hdrain, hone⟩ := drain_eq agent.steeringQueue
  refine runAgentLoop_inv ⟨?_, rfl, rfl, rfl, rfl, fun _ => rfl, fun source => ?_,
    .inl rfl, .inr rfl, fun source hmode => ?_⟩
  · simp [ledger, Ledger.expected]
  · cases source with
    | steering => exact hdrain.symm
    | followUp => rfl
  · cases source with
    | steering => simpa [ledger, Ledger.queue] using hone hmode
    | followUp => exact Nat.zero_le 1

theorem drainedFollowUps_inv (agent : AgentState) :
    RunInv ({ agent with followUpQueue := agent.followUpQueue.drain.2 }.runAgentLoop
      (.queue .followUp) (.drained .followUp agent.followUpQueue.drain.1)
      agent.followUpQueue.drain.1 agent.queuedEvents false) := by
  obtain ⟨hdrain, hone⟩ := drain_eq agent.followUpQueue
  refine runAgentLoop_inv ⟨?_, rfl, rfl, rfl, rfl, fun _ => rfl, fun source => ?_,
    .inr rfl, .inl rfl, fun source hmode => ?_⟩
  · simp [ledger, Ledger.expected]
  · cases source with
    | steering => rfl
    | followUp => exact hdrain.symm
  · cases source with
    | steering => exact Nat.zero_le 1
    | followUp => simpa [ledger, Ledger.queue] using hone hmode

theorem starts_inv {agent : AgentState} (h : agent.Starts s) : RunInv s := by
  rcases h with ⟨messages, rfl⟩ | h
  · exact prompt_inv agent messages
  · rw [AgentState.continueRun] at h
    split at h
    · cases h
    · split at h
      · cases h
      · split at h
        · dsimp only at h
          split at h
          · cases h
            exact drained_inv agent
          · split at h
            · cases h
              exact drainedFollowUps_inv agent
            · cases h
        · cases h
          exact runAgentLoopContinue_inv agent

/-! ## Runs -/

/-- The states of the runs of an agent, with any calls of `steer` and
`followUp` between the steps of the loop. -/
def Runs : RunState → Prop :=
  Run (fun s => ∃ agent : AgentState, agent.Starts s) RunState.step StatusContract

theorem Runs.inv (h : Runs s) : RunInv s :=
  Run.invariant (fun _ ⟨_, hstarts⟩ => starts_inv hstarts)
    (fun _ _ _ hinv hcontract hs => hinv.step hcontract hs) h

/-- No message is lost or delivered twice. -/
structure DeliversOnce (s : RunState) : Prop where
  /-- What is handed out for a turn is emitted and appended once. -/
  delivered : ∀ (index : Nat) (turn : List RunEvent), s.turns[index]? = some turn →
    (ledger turn).Delivered
  /-- What is not handed out is still in its queue. -/
  kept : ∀ source, Accounted s source
  single : ∀ (index : Nat) (turn : List RunEvent), s.turns[index]? = some turn →
    ¬ FollowUpStart s index → (∀ source, (s.queue source).mode = .oneAtATime) →
    ((ledger turn).followUps ++ (ledger turn).steering).length ≤ 1

/-- **Every message that is handed out is delivered once, in the order of its
turn.** -/
theorem delivers_once (h : Runs s) : DeliversOnce s where
  delivered index turn hturn := (h.inv.books.turns index turn hturn).1
  kept source := h.inv.books.accounted source
  single index turn hturn hstart hmode := by
    obtain ⟨halone, hbound⟩ := (h.inv.books.turns index turn hturn).2
    rcases halone with hnone | hnone | hfirst
    · rw [hnone, nil_append]
      exact hbound .steering (hmode .steering)
    · rw [hnone, append_nil]
      exact hbound .followUp (hmode .followUp)
    · exact absurd hfirst hstart

/-- No message is lost or delivered twice, and the order of delivery is that of
the polls. -/
structure DeliversInPollOrder (s : RunState) : Prop where
  delivered : ∀ (index : Nat) (turn : List RunEvent), s.turns[index]? = some turn →
    Declared (turn.flatMap RunEvent.handedOut) (ledger turn).appended ∧
      (ledger turn).lifecycle = lifecycles (ledger turn).appended
  kept : ∀ source, Accounted s source
  single : ∀ (index : Nat) (turn : List RunEvent), s.turns[index]? = some turn →
    (∀ source, (s.queue source).mode = .oneAtATime) →
    ((ledger turn).followUps ++ (ledger turn).steering).length ≤ 1

/-! A note on the context that is polled before a user steers the next turn. -/

def noteAgent : AgentState where
  messages := []
  tools := []
  steeringQueue := ⟨[], .oneAtATime⟩
  followUpQueue := ⟨[], .oneAtATime⟩

def noteRun : List RunLabel :=
  [.next, .next, .next, .next, .next, .prepareRequest none,
    .respond ⟨"", [⟨"1", "read", ""⟩], .toolUse⟩,
    .executeToolCalls ⟨[⟨"1", "read", [], none, none, false⟩], false⟩,
    .finishTurn none, .next, .getContextStatusMessages [.other "user" "note"],
    .steer (.other "user" "steer"), .prepareNextTurn ⟨none, []⟩,
    .next, .next, .next, .next, .next, .next, .prepareRequest none, .respond ⟨"", [], .stop⟩]

def noteState : RunState :=
  Run.afterAll RunState.step (noteAgent.prompt [.other "user" "prompt"]) noteRun

theorem runs_noteState : Runs noteState :=
  Run.of_check (.init ⟨noteAgent, .inl ⟨_, rfl⟩⟩) (by decide)

theorem delivers_once_noteState : DeliversOnce noteState := delivers_once runs_noteState

/-- A steering message overtakes a note that was polled before it. -/
theorem not_delivers_in_poll_order : ¬ ∀ s, Runs s → DeliversInPollOrder s := by
  intro h
  have hturn : noteState.turns[1]? = some (noteState.turns[1]?.getD []) := by decide
  obtain ⟨hdeclared, -⟩ := (h noteState runs_noteState).delivered 1 _ hturn
  cases hdeclared with
  | same hbare _ => exact absurd hbare (by decide)

end ReflectivePi.Agent
