import ReflectivePi.Agent.Delivery

/-!
# Agent — ShownQueues

The lists of queued messages that a session shows, and the queues of its agent
that they stand for. A text goes into both; it leaves the lists when a user
message with that text starts, and the queues when the agent drains them.
-/

namespace ReflectivePi.Agent.ShownQueues

open List Function

structure State where
  queue : Source → PendingMessageQueue
  /-- `_steeringMessages` and `_followUpMessages`. -/
  shown : Source → List String
  /-- What the agent drained and has not started yet. -/
  drained : List (Source × AgentMessage)

/-- `contentText` of a user message: its images are not read. -/
def text : AgentMessage → String
  | .other _ content => content
  | _ => ""

namespace State

/-- The texts in the agent's queue. -/
def waiting (s : State) (source : Source) : List String := (s.queue source).messages.map text

def starting (s : State) (source : Source) : List String :=
  (s.drained.filter fun message => message.1 = source).map fun message => text message.2

/-- `_queueSteer` and `_queueFollowUp`. -/
def submit (s : State) (source : Source) (text : String) : State :=
  { s with
    shown := update s.shown source (s.shown source ++ [text])
    queue := update s.queue source ((s.queue source).enqueue (.other "user" text)) }

def drain (s : State) (source : Source) : State :=
  { s with
    queue := update s.queue source (s.queue source).drain.2
    drained := s.drained ++ (s.queue source).drain.1.map fun message => (source, message) }

/-- `_handleAgentEvent` at the start of a user message. -/
def handleMessageStart (s : State) (messageText : String) : State :=
  if messageText = "" then s
  else if messageText ∈ s.shown .steering then
    { s with shown := update s.shown .steering ((s.shown .steering).erase messageText) }
  else { s with shown := update s.shown .followUp ((s.shown .followUp).erase messageText) }

/-- What is returned, and what is left. -/
def clearQueue (s : State) : (Source → List String) × State :=
  (s.shown, { s with
    shown := fun _ => []
    queue := fun source => { s.queue source with messages := [] } })

/-- The lists show what waits, after what is about to start. -/
structure InStep (s : State) : Prop where
  shown : ∀ source, s.shown source = s.starting source ++ s.waiting source
  cleared : s.drained = [] → ∀ source, s.clearQueue.1 source = s.waiting source

structure Empty (s : State) : Prop where
  queue : ∀ source, (s.queue source).messages = []
  shown : ∀ source, s.shown source = []
  drained : s.drained = []

end State

inductive Step where
  | submit (source : Source) (text : String)
  | setMode (source : Source) (mode : QueueMode)
  | drain (source : Source)
  | messageStart
  | clearQueue

def step (s : State) : Step → Option State
  | .submit source text => some (s.submit source text)
  | .setMode source mode =>
    some { s with queue := update s.queue source { s.queue source with mode := mode } }
  | .drain source => some (s.drain source)
  | .messageStart =>
    match s.drained with
    | [] => none
    | (_, message) :: rest => some ({ s with drained := rest }.handleMessageStart (text message))
  | .clearQueue => some s.clearQueue.2

/-- Text that is not empty, no start of a follow-up whose text is shown as
steering, and no clearing between a drain and a start. -/
def Careful (s : State) : Step → Prop
  | .submit _ text => text ≠ ""
  | .messageStart => ∀ message ∈ s.drained.head?, message.1 = .followUp →
    text message.2 ∉ s.shown .steering
  | .clearQueue => s.drained = []
  | .setMode .. | .drain _ => True

instance (s : State) : (label : Step) → Decidable (Careful s label)
  | .submit _ text => inferInstanceAs (Decidable (text ≠ ""))
  | .messageStart => inferInstanceAs (Decidable (∀ _ ∈ s.drained.head?, _))
  | .clearQueue => inferInstanceAs (Decidable (s.drained = []))
  | .setMode .. | .drain _ => inferInstanceAs (Decidable True)

variable {s s' : State} {label : Step} {source : Source}

structure State.Inv (s : State) : Prop where
  shown : ∀ source, s.shown source = s.starting source ++ s.waiting source
  spoken : ∀ source, "" ∉ s.shown source

theorem State.Inv.submit (h : s.Inv) {text : String} (htext : text ≠ "") :
    (s.submit source text).Inv := by
  refine ⟨fun source' => ?_, fun source' => ?_⟩ <;> by_cases hsource : source' = source
  · subst hsource
    simp [State.submit, State.starting, h.shown source', PendingMessageQueue.enqueue,
      State.waiting, ShownQueues.text]
  · simpa [State.submit, State.starting, State.waiting, hsource] using h.shown source'
  · subst hsource
    simpa [State.submit, htext.symm] using h.spoken source'
  · simpa [State.submit, hsource] using h.spoken source'

theorem State.Inv.drain (h : s.Inv) : (s.drain source).Inv := by
  refine ⟨fun source' => (h.shown source').trans ?_, h.spoken⟩
  by_cases hsource : source' = source
  · subst hsource
    rw [State.waiting, ← (drain_eq (s.queue source')).1]
    simp [State.drain, State.starting, State.waiting, filter_map, Function.comp_def]
  · simp [State.drain, State.starting, State.waiting, hsource, filter_map, Function.comp_def,
      Ne.symm hsource]

theorem State.Inv.messageStart (h : s.Inv) {message : AgentMessage}
    {rest : List (Source × AgentMessage)} (hdrained : s.drained = (source, message) :: rest)
    (hshown : source = .followUp → text message ∉ s.shown .steering) :
    ({ s with drained := rest }.handleMessageStart (text message)).Inv := by
  have hhead : s.shown source =
      text message :: (State.starting { s with drained := rest } source ++ s.waiting source) := by
    simpa [State.starting, hdrained] using h.shown source
  have hmem : text message ∈ s.shown source := by simp [hhead]
  have hstart : { s with drained := rest }.handleMessageStart (text message) =
      { s with
        drained := rest
        shown := update s.shown source ((s.shown source).erase (text message)) } := by
    unfold State.handleMessageStart
    rw [if_neg fun hempty : text message = "" => h.spoken source (hempty ▸ hmem)]
    cases source with
    | steering => exact if_pos hmem
    | followUp => exact if_neg (hshown rfl)
  rw [hstart]
  refine ⟨fun source' => ?_, fun source' => ?_⟩ <;> by_cases hsource : source' = source
  · subst hsource
    simp [hhead, State.waiting, State.starting]
  · simpa [State.starting, State.waiting, hdrained, hsource, Ne.symm hsource]
      using h.shown source'
  · subst hsource
    simpa using fun hin => h.spoken source' (mem_of_mem_erase hin)
  · simpa [hsource] using h.spoken source'

theorem State.Inv.step (h : s.Inv) (hok : Careful s label) (hstep : step s label = some s') :
    s'.Inv := by
  cases label with
  | submit source text =>
    cases hstep
    exact h.submit hok
  | setMode source mode =>
    cases hstep
    refine ⟨fun source' => (h.shown source').trans ?_, h.spoken⟩
    by_cases hsource : source' = source
    · subst hsource
      simp [State.starting, State.waiting]
    · simp [State.starting, State.waiting, hsource]
  | drain source =>
    cases hstep
    exact h.drain
  | messageStart =>
    unfold ShownQueues.step at hstep
    cases hdrained : s.drained with
    | nil => simp [hdrained] at hstep
    | cons first rest =>
      rw [hdrained] at hstep
      cases hstep
      exact h.messageStart hdrained (hok first (by simp [hdrained]))
  | clearQueue =>
    cases hstep
    have hnone : s.drained = [] := hok
    exact ⟨fun source => by simp [State.clearQueue, State.starting, State.waiting, hnone],
      fun source => by simp [State.clearQueue]⟩

/-- **The shown lists keep in step with the queues** in every run of careful steps. -/
theorem shown_inStep (h : Run State.Empty step Careful s) : s.InStep := by
  have hinv : s.Inv := h.invariant
    (fun s hempty => ⟨fun source => by
      simp [State.starting, State.waiting, hempty.shown, hempty.queue, hempty.drained],
      fun source => by simp [hempty.shown]⟩)
    fun _ _ _ hinv hok hstep => hinv.step hok hstep
  exact ⟨hinv.shown, fun hnone source => (hinv.shown source).trans (by
    simp [State.starting, hnone])⟩

def start : State := ⟨fun _ => ⟨[], .oneAtATime⟩, fun _ => [], []⟩

theorem start_empty : start.Empty := ⟨fun _ => rfl, fun _ => rfl, rfl⟩

theorem shown_inStep_sample :
    (Run.afterAll step start [.submit .steering "a", .drain .steering, .messageStart]).InStep :=
  shown_inStep (.of_check (.init start_empty) rfl)

/-- A message with images and no text stays in the list that shows it. -/
theorem shown_not_inStep :
    ¬ ∀ s, Run State.Empty step (fun _ _ => True) s → s.InStep := by
  intro h
  have hrun : Run State.Empty step (fun _ _ => True) (Run.afterAll step start
      [.submit .steering "", .drain .steering, .messageStart]) :=
    .of_check (.init start_empty) rfl
  exact absurd ((h _ hrun).shown .steering) (by decide)

end ReflectivePi.Agent.ShownQueues
