import ReflectivePi.Agent.RunLoop

/-!
# Agent — Delivery

What becomes of the messages that are handed out to a run, by a poll of a queue
or by a hook: each is emitted and appended once before the next response or the
end of the run, and what is not handed out stays in its queue.
-/

namespace ReflectivePi.Agent

open List

/-! ## The ledger of a turn -/

namespace RunEvent

@[simp] def prompts : RunEvent → List AgentMessage
  | .prompted messages => messages
  | _ => []

@[simp] def preparedMessages : RunEvent → List AgentMessage
  | .prepared messages => messages
  | _ => []

@[simp] def drainedFrom (source : Source) : RunEvent → List AgentMessage
  | .drained source' messages => if source' = source then messages else []
  | _ => []

@[simp] def status : RunEvent → List AgentMessage
  | .contextStatus messages => messages
  | _ => []

/-- What is handed out, by whatever it is. -/
@[simp] def handedOut : RunEvent → List AgentMessage
  | .prompted messages => messages
  | .prepared messages => messages
  | .drained _ messages => messages
  | .contextStatus messages => messages
  | _ => []

@[simp] def queuedTo (source : Source) : RunEvent → List AgentMessage
  | .queued source' message => if source' = source then [message] else []
  | _ => []

@[simp] def lifecycle : RunEvent → List RunEvent
  | .messageStart message => [.messageStart message]
  | .messageEnd message => [.messageEnd message]
  | _ => []

@[simp] def appendedMessage : RunEvent → List AgentMessage
  | .appended message => [message]
  | _ => []

end RunEvent

/-- What the events of a turn hand out and deliver. -/
@[ext] structure Ledger where
  prompts : List AgentMessage
  prepared : List AgentMessage
  followUps : List AgentMessage
  steering : List AgentMessage
  status : List AgentMessage
  lifecycle : List RunEvent
  appended : List AgentMessage

def ledger (events : List RunEvent) : Ledger where
  prompts := events.flatMap RunEvent.prompts
  prepared := events.flatMap RunEvent.preparedMessages
  followUps := events.flatMap (RunEvent.drainedFrom .followUp)
  steering := events.flatMap (RunEvent.drainedFrom .steering)
  status := events.flatMap RunEvent.status
  lifecycle := events.flatMap RunEvent.lifecycle
  appended := events.flatMap RunEvent.appendedMessage

/-- The messages that are handed out for a turn, in the order of delivery. -/
def Ledger.expected (l : Ledger) : List AgentMessage :=
  l.prompts ++ l.prepared ++ l.followUps ++ l.steering ++ l.status

def Ledger.queue (l : Ledger) : Source → List AgentMessage
  | .steering => l.steering
  | .followUp => l.followUps

/-- The events of messages that are delivered one after the other. -/
def lifecycles (messages : List AgentMessage) : List RunEvent :=
  messages.flatMap fun message => [.messageStart message, .messageEnd message]

/-- All that was handed out is delivered once. -/
def Ledger.Delivered (l : Ledger) : Prop :=
  Declared l.expected l.appended ∧ l.lifecycle = lifecycles l.appended

/-! ## The invariant -/

/-- The first turn of a run whose prompts are queued follow-up messages. -/
def FollowUpStart (s : RunState) (index : Nat) : Prop :=
  index = 0 ∧ s.origin = .queue .followUp

/-- One queue is delivered from in a turn, and one message at a time. -/
structure Limited (s : RunState) (index : Nat) (l : Ledger) : Prop where
  alone : l.followUps = [] ∨ l.steering = [] ∨ FollowUpStart s index
  bound : ∀ source, (s.queue source).mode = .oneAtATime → (l.queue source).length ≤ 1

/-- What is handed out for the next turn is pending. -/
structure Gathered (s : RunState) (preparedMessages : List AgentMessage) (l : Ledger) :
    Prop where
  prompts : l.prompts = []
  prepared : l.prepared = preparedMessages
  queue : l.followUps ++ l.steering = s.pendingMessages
  status : l.status = s.pendingContextStatus
  lifecycle : l.lifecycle = []
  appended : l.appended = []
  completed : s.lastCompletedTurn.isSome = true

/-- Nothing is handed out yet. -/
def Idle (s : RunState) (l : Ledger) : Prop :=
  Gathered s [] l ∧ s.pendingMessages = [] ∧ s.pendingContextStatus = []

/-- Before the first turn: only prompts are handed out. -/
structure Opening (s : RunState) (l : Ledger) : Prop where
  declared : Declared l.expected l.appended
  prepared : l.prepared = []
  status : l.status = []
  pendingStatus : s.pendingContextStatus = []
  completed : s.lastCompletedTurn = none
  followUps : l.followUps = [] ∨ FollowUpStart s s.turns.length
  steering : l.steering = [] ∨ s.skipInitialSteeringPoll = true

/-- A turn goes on unless its hook for context status has to be silent. -/
def Continues (s : RunState) (turn : CompletedTurn) : Prop :=
  s.hasMoreToolCalls = true ∨ turn.toolResults = [] ∨ turn.terminated = true

def Point.Holds (s : RunState) (l : Ledger) : Point → Prop
  | .prompting rest => Opening s l ∧
      ∃ done, l.appended = done ++ rest ∧ l.lifecycle = lifecycles done
  | .promptEnding message rest => Opening s l ∧ ∃ done, l.appended = done ++ message :: rest ∧
        l.lifecycle = lifecycles done ++ [.messageStart message]
  | .initialPoll => Opening s l ∧ l.lifecycle = lifecycles l.appended
  | .preparing => Gathered s [] l
  | .repolling preparedMessages =>
    Gathered s preparedMessages l ∧ s.pendingMessages = []
  | .delivering rest => Declared l.expected (l.appended ++ rest) ∧
      l.lifecycle = lifecycles l.appended ∧ s.pendingContextStatus = []
  | .messageEnding message rest => Declared l.expected (l.appended ++ message :: rest) ∧
      l.lifecycle = lifecycles l.appended ++ [.messageStart message] ∧
      s.pendingContextStatus = []
  | .requesting => l.Delivered ∧ s.pendingMessages = [] ∧ s.pendingContextStatus = []
  | .responding => l.Delivered ∧ s.pendingMessages = [] ∧ s.pendingContextStatus = []
  | .executing _ => l = ledger [] ∧ s.pendingMessages = [] ∧ s.pendingContextStatus = []
  | .finishing turn => Idle s l ∧ Continues s turn
  | .steeringPoll turn => Idle s l ∧ Continues s turn
  | .statusPoll turn =>
    Gathered s [] l ∧ s.pendingContextStatus = [] ∧ Continues s turn
  | .followUpPoll => Idle s l
  | .ended => l = ledger []

def RunState.trace (s : RunState) : List RunEvent := s.turns.flatten ++ s.events

/-- What was put into a queue is drained or still there. -/
def Accounted (s : RunState) (source : Source) : Prop :=
  s.trace.flatMap (RunEvent.queuedTo source)
    = s.trace.flatMap (RunEvent.drainedFrom source) ++ (s.queue source).messages

/-- The turns that are over, and the queues. -/
structure Books (s : RunState) : Prop where
  turns : ∀ (index : Nat) (turn : List RunEvent), s.turns[index]? = some turn →
    (ledger turn).Delivered ∧ Limited s index (ledger turn)
  accounted : ∀ source, Accounted s source
  limited : Limited s s.turns.length (ledger s.events)

structure RunInv (s : RunState) : Prop where
  books : Books s
  point : s.point.Holds s (ledger s.events)

variable {s s' : RunState} {source : Source}

/-! ## Ledgers -/

/-- Two ledgers, one after the other. -/
def Ledger.add (l more : Ledger) : Ledger where
  prompts := l.prompts ++ more.prompts
  prepared := l.prepared ++ more.prepared
  followUps := l.followUps ++ more.followUps
  steering := l.steering ++ more.steering
  status := l.status ++ more.status
  lifecycle := l.lifecycle ++ more.lifecycle
  appended := l.appended ++ more.appended

theorem ledger_append (events more : List RunEvent) :
    ledger (events ++ more) = (ledger events).add (ledger more) := by
  simp only [ledger, Ledger.add, flatMap_append]

@[simp] theorem Ledger.add_empty (l : Ledger) : l.add (ledger []) = l := by
  simp [Ledger.add, ledger]

/-- Events that move no message. -/
def Quiet (events : List RunEvent) : Prop :=
  ∀ source, events.flatMap (RunEvent.queuedTo source) = [] ∧
    events.flatMap (RunEvent.drainedFrom source) = []

theorem Limited.congr {index : Nat} {l l' : Ledger} (h : Limited s index l)
    (horigin : s'.origin = s.origin)
    (hmode : ∀ source, (s'.queue source).mode = (s.queue source).mode)
    (hqueue : ∀ source, l'.queue source = l.queue source) : Limited s' index l' := by
  have hfollow : l'.followUps = l.followUps := hqueue .followUp
  have hsteering : l'.steering = l.steering := hqueue .steering
  refine ⟨?_, fun source hone => ?_⟩
  · rw [hfollow, hsteering, FollowUpStart, horigin]
    exact h.alone
  · rw [hqueue source]
    exact h.bound source (hmode source ▸ hone)

theorem queue_add (l more : Ledger) (source : Source) :
    (l.add more).queue source = l.queue source ++ more.queue source := by
  cases source <;> rfl

theorem ledger_queue (events : List RunEvent) (source : Source) :
    (ledger events).queue source = events.flatMap (RunEvent.drainedFrom source) := by
  cases source <;> rfl

/-! ## Books -/

theorem Books.emit (h : Books s) {events : List RunEvent} (hquiet : Quiet events)
    (hturns : s'.turns = s.turns) (hevents : s'.events = s.events ++ events)
    (horigin : s'.origin = s.origin) (hqueue : ∀ source, s'.queue source = s.queue source) :
    Books s' := by
  have hmode (source : Source) : (s'.queue source).mode = (s.queue source).mode := by
    rw [hqueue source]
  refine ⟨fun index turn hturn => ?_, fun source => ?_, ?_⟩
  · rw [hturns] at hturn
    obtain ⟨hdelivered, hlimited⟩ := h.turns index turn hturn
    exact ⟨hdelivered, hlimited.congr horigin hmode fun _ => rfl⟩
  · have hsource := h.accounted source
    have htrace : s'.trace = s.trace ++ events := by
      simp only [RunState.trace, hturns, hevents, append_assoc]
    rw [Accounted, htrace, hqueue source, flatMap_append, flatMap_append,
      (hquiet source).1, (hquiet source).2, append_nil, append_nil]
    exact hsource
  · rw [hturns, hevents]
    refine h.limited.congr horigin hmode fun source => ?_
    rw [ledger_append, queue_add, ledger_queue events, (hquiet source).2, append_nil]

theorem Books.close (h : Books s) {event : RunEvent} (hquiet : Quiet [event])
    (hledger : ledger [event] = ledger []) (hdelivered : (ledger s.events).Delivered)
    (hturns : s'.turns = s.turns ++ [s.events ++ [event]]) (hevents : s'.events = [])
    (horigin : s'.origin = s.origin) (hqueue : ∀ source, s'.queue source = s.queue source) :
    Books s' := by
  have hmode (source : Source) : (s'.queue source).mode = (s.queue source).mode := by
    rw [hqueue source]
  have hsame : ledger (s.events ++ [event]) = ledger s.events := by
    rw [ledger_append, hledger, Ledger.add_empty]
  refine ⟨fun index turn hturn => ?_, fun source => ?_, ?_⟩
  · rw [hturns] at hturn
    rcases Nat.lt_trichotomy index s.turns.length with hlt | rfl | hgt
    · rw [getElem?_append_left hlt] at hturn
      obtain ⟨hdelivered, hlimited⟩ := h.turns index turn hturn
      exact ⟨hdelivered, hlimited.congr horigin hmode fun _ => rfl⟩
    · rw [getElem?_concat_length] at hturn
      obtain rfl := Option.some.inj hturn
      rw [hsame]
      exact ⟨hdelivered, h.limited.congr horigin hmode fun _ => rfl⟩
    · rw [getElem?_eq_none (by simpa using Nat.succ_le_of_lt hgt)] at hturn
      cases hturn
  · have hsource := h.accounted source
    have htrace : s'.trace = s.trace ++ [event] := by
      simp [RunState.trace, hturns, hevents]
    rw [Accounted, htrace, hqueue source, flatMap_append, flatMap_append,
      (hquiet source).1, (hquiet source).2, append_nil, append_nil]
    exact hsource
  · rw [hevents]
    refine ⟨.inl rfl, fun source _ => ?_⟩
    cases source <;> exact Nat.zero_le 1

theorem queue_enqueue (source source' : Source) (message : AgentMessage) :
    (s.enqueue source message).queue source'
      = if source' = source then (s.queue source).enqueue message
        else s.queue source' := by
  cases source <;> cases source' <;> rfl

theorem queue_drainQueue (source source' : Source) :
    (s.drainQueue source).queue source'
      = if source' = source then (s.queue source).drain.2 else s.queue source' := by
  cases source <;> cases source' <;> rfl

theorem enqueue_fields (message : AgentMessage) :
    (s.enqueue source message).turns = s.turns ∧
      (s.enqueue source message).events = s.events ++ [.queued source message] ∧
      (s.enqueue source message).origin = s.origin := by
  cases source <;> exact ⟨rfl, rfl, rfl⟩

theorem drainQueue_fields (s : RunState) (source : Source) :
    (s.drainQueue source).turns = s.turns ∧ (s.drainQueue source).events
        = s.events ++ [.drained source (s.queue source).drain.1] ∧
      (s.drainQueue source).origin = s.origin := by
  cases source <;> exact ⟨rfl, rfl, rfl⟩

theorem drain_eq (queue : PendingMessageQueue) :
    queue.drain.1 ++ queue.drain.2.messages = queue.messages ∧
      (queue.mode = .oneAtATime → queue.drain.1.length ≤ 1) := by
  obtain ⟨messages, mode⟩ := queue
  cases mode with
  | all => simp [PendingMessageQueue.drain, PendingMessageQueue.peek]
  | oneAtATime =>
    cases messages <;> simp [PendingMessageQueue.drain, PendingMessageQueue.peek]

theorem Books.enqueue (h : Books s) (source : Source) (message : AgentMessage) :
    Books (s.enqueue source message) := by
  obtain ⟨hturns, hevents, horigin⟩ := @enqueue_fields s source message
  have hmode (source' : Source) :
      ((s.enqueue source message).queue source').mode = (s.queue source').mode := by
    rw [queue_enqueue]
    split
    · rename_i hsame
      subst hsame
      rfl
    · rfl
  have htrace : (s.enqueue source message).trace = s.trace ++ [.queued source message] := by
    rw [RunState.trace, hturns, hevents, RunState.trace, append_assoc]
  refine ⟨fun index turn hturn => ?_, fun source' => ?_, ?_⟩
  · obtain ⟨hdelivered, hlimited⟩ := h.turns index turn (hturns ▸ hturn)
    exact ⟨hdelivered, hlimited.congr horigin hmode fun _ => rfl⟩
  · have hsource := h.accounted source'
    rw [Accounted] at hsource
    rw [Accounted, htrace, queue_enqueue, flatMap_append, flatMap_append, hsource]
    by_cases hsame : source' = source
    · subst hsame
      rw [if_pos rfl]
      simp [PendingMessageQueue.enqueue]
    · rw [if_neg hsame]
      simp [Ne.symm hsame]
  · rw [hturns, hevents, ledger_append]
    refine h.limited.congr horigin hmode fun source' => ?_
    rw [queue_add, ledger_queue [_]]
    exact append_nil _

theorem Books.drainQueue (h : Books s) (hempty : (ledger s.events).queue source = [])
    (halone : ∀ source', source' ≠ source → (ledger s.events).queue source' = [] ∨
      FollowUpStart s s.turns.length) : Books (s.drainQueue source) := by
  obtain ⟨hturns, hevents, horigin⟩ := drainQueue_fields s source
  obtain ⟨hdrain, hone⟩ := drain_eq (s.queue source)
  have hmode (source' : Source) :
      ((s.drainQueue source).queue source').mode = (s.queue source').mode := by
    rw [queue_drainQueue]
    split
    · rename_i hsame
      subst hsame
      rfl
    · rfl
  have htrace : (s.drainQueue source).trace
      = s.trace ++ [.drained source (s.queue source).drain.1] := by
    rw [RunState.trace, hturns, hevents, RunState.trace, append_assoc]
  have hqueue (source' : Source) : (ledger (s.drainQueue source).events).queue source'
      = if source' = source then (s.queue source).drain.1
        else (ledger s.events).queue source' := by
    rw [hevents, ledger_append, queue_add, ledger_queue [_]]
    by_cases hsame : source' = source
    · subst hsame
      rw [hempty, if_pos rfl]
      simp
    · rw [if_neg hsame]
      simp [Ne.symm hsame]
  refine ⟨fun index turn hturn => ?_, fun source' => ?_, ?_, fun source' hmode' => ?_⟩
  · obtain ⟨hdelivered, hlimited⟩ := h.turns index turn (hturns ▸ hturn)
    exact ⟨hdelivered, hlimited.congr horigin hmode fun _ => rfl⟩
  · have hsource := h.accounted source'
    rw [Accounted] at hsource
    rw [Accounted, htrace, queue_drainQueue, flatMap_append, flatMap_append, hsource]
    by_cases hsame : source' = source
    · subst hsame
      rw [if_pos rfl, ← hdrain]
      simp
    · rw [if_neg hsame]
      simp [Ne.symm hsame]
  · have hstart : FollowUpStart (s.drainQueue source) (s.drainQueue source).turns.length
        ↔ FollowUpStart s s.turns.length := by
      rw [FollowUpStart, FollowUpStart, hturns, horigin]
    rw [hstart]
    cases source with
    | steering =>
      rcases halone .followUp nofun with hnone | hstart
      · exact .inl ((hqueue .followUp).trans hnone)
      · exact .inr (.inr hstart)
    | followUp =>
      rcases halone .steering nofun with hnone | hstart
      · exact .inr (.inl ((hqueue .steering).trans hnone))
      · exact .inr (.inr hstart)
  · rw [hmode source'] at hmode'
    rw [hqueue source']
    by_cases hsame : source' = source
    · subst hsame
      rw [if_pos rfl]
      exact hone hmode'
    · rw [if_neg hsame]
      exact h.limited.bound source' hmode'

theorem Books.getSteeringMessages (h : Books s)
    (hsteering : (ledger s.events).steering = [] ∨ s.skipInitialSteeringPoll = true)
    (hfollowUps : (ledger s.events).followUps = [] ∨ FollowUpStart s s.turns.length) :
    Books s.getSteeringMessages := by
  rw [RunState.getSteeringMessages]
  split
  · exact @Books.emit _ _ h [] (fun _ => ⟨rfl, rfl⟩) rfl (append_nil _).symm rfl
      fun source => by cases source <;> rfl
  · rename_i hskip
    refine h.drainQueue (hsteering.resolve_right hskip) fun source' hne => ?_
    cases source' with
    | steering => exact absurd rfl hne
    | followUp => exact hfollowUps

theorem ledger_getSteeringMessages (s : RunState) :
    ledger s.getSteeringMessages.events = { ledger s.events with
          steering := (ledger s.events).steering ++ s.getSteeringMessages.pendingMessages } := by
  rw [RunState.getSteeringMessages]
  split
  · simp
  · show ledger (s.drainQueue .steering).events = _
    rw [(drainQueue_fields s .steering).2.1, ledger_append]
    simp [Ledger.add, ledger, RunState.drainQueue]

theorem getSteeringMessages_fields (s : RunState) :
    s.getSteeringMessages.pendingContextStatus = s.pendingContextStatus ∧
      s.getSteeringMessages.lastCompletedTurn = s.lastCompletedTurn ∧
      s.getSteeringMessages.hasMoreToolCalls = s.hasMoreToolCalls ∧
      s.getSteeringMessages.context = s.context := by
  rw [RunState.getSteeringMessages]
  split <;> exact ⟨rfl, rfl, rfl, rfl⟩

end ReflectivePi.Agent
