import ReflectivePi.Agent.ToolRuns

/-!
# Agent — Transcripts

What a batch of tool calls leaves behind. The result messages are those of the
outcomes that the calls have by themselves, in call order, so they are the same
for both ways to execute them.
-/

namespace ReflectivePi.Agent

open List

variable {Args : Type} {C : ToolConfig Args} {mode : Mode} {calls : List ToolCall}
  {s s' : Execution Args} {toolCall : ToolCall} {index : Nat}

/-! ## Results -/

theorem entries_eq_map {entries : List (Phase Args)} (h : ∀ phase ∈ entries, phase.isEnded = true) :
    entries = (entries.filterMap Phase.finalized?).map .ended := by
  induction entries with
  | nil => rfl
  | cons phase entries ih =>
    have hrest := ih fun p hp => h p (mem_cons_of_mem _ hp)
    cases phase with
    | ended finalized => exact congrArg (Phase.ended finalized :: ·) hrest
    | _ => cases h _ mem_cons_self

theorem Inv.finalized (h : Inv C mode calls s)
    (hended : ∀ phase ∈ s.entries, phase.isEnded = true) {i : Nat} {f : Finalized}
    (hf : s.finalizedCalls[i]? = some f) :
    ∃ toolCall, calls[i]? = some toolCall ∧ f.toolCall = toolCall ∧
      (s.aborted = false → f = outcome C toolCall) := by
  have hentry : s.entries[i]? = some (.ended f) := by
    rw [entries_eq_map hended, getElem?_map]
    exact congrArg (Option.map Phase.ended) hf
  obtain ⟨toolCall, hcall, hok, -⟩ := h.entries i _ hentry
  exact ⟨toolCall, hcall, hok⟩

theorem Inv.length_finalizedCalls (hended : ∀ phase ∈ s.entries, phase.isEnded = true) :
    s.finalizedCalls.length = s.entries.length := by
  conv_rhs => rw [entries_eq_map hended, length_map]
  rfl

theorem Inv.toolCalls_eq (h : Inv C mode calls s)
    (hended : ∀ phase ∈ s.entries, phase.isEnded = true) :
    s.finalizedCalls.map Finalized.toolCall = calls.take s.entries.length := by
  refine ext_getElem? fun i => ?_
  rw [getElem?_map, getElem?_take]
  cases hf : s.finalizedCalls[i]? with
  | some f =>
    obtain ⟨toolCall, hcall, hsame, -⟩ := h.finalized hended hf
    have hi := (List.getElem?_eq_some_iff.mp hf).1
    rw [Inv.length_finalizedCalls hended] at hi
    rw [if_pos hi, hcall, ← hsame]
    rfl
  | none =>
    have hi := List.getElem?_eq_none_iff.mp hf
    rw [Inv.length_finalizedCalls hended] at hi
    rw [if_neg (Nat.not_lt.mpr hi)]
    rfl

theorem Inv.outcomes (h : Inv C mode calls s) (haborted : s.aborted = false)
    (hcomplete : Complete calls s) (hended : ∀ phase ∈ s.entries, phase.isEnded = true) :
    s.finalizedCalls = calls.map (outcome C) := by
  have hlength : s.entries.length = calls.length := by
    rcases hcomplete with hlength | habort
    · exact hlength
    · rw [haborted] at habort
      cases habort
  refine ext_getElem? fun i => ?_
  rw [getElem?_map]
  cases hf : s.finalizedCalls[i]? with
  | some f =>
    obtain ⟨toolCall, hcall, -, hout⟩ := h.finalized hended hf
    rw [hcall, hout haborted]
    rfl
  | none =>
    have hi := List.getElem?_eq_none_iff.mp hf
    rw [Inv.length_finalizedCalls hended, hlength] at hi
    rw [getElem?_eq_none hi]
    rfl

theorem outcome_toolCall (toolCall : ToolCall) : (outcome C toolCall).toolCall = toolCall := by
  unfold outcome
  split
  · rfl
  · exact finalize_toolCall _ _

/-! ## The transcript -/

variable (C mode calls) in
/-- The states that a batch of calls comes to. -/
def Reached : Execution Args → Prop :=
  Run (fun s => ∃ isAborted, s = .start isAborted) (Execution.step C mode calls)
    fun _ _ => True

theorem Reached.inv (h : Reached C mode calls s) : Inv C mode calls s := by
  refine Run.invariant (fun s hs => ?_) (fun s label s' hinv _ hs => hinv.step hs) h
  obtain ⟨isAborted, rfl⟩ := hs
  exact inv_start isAborted

variable {batch : Batch}

theorem Inv.returned (h : Inv C mode calls s) (hreturned : s.loop = .returned batch) :
    Complete calls s ∧ (∀ phase ∈ s.entries, phase.isEnded = true) ∧
      batch = batchOf s.finalizedCalls := by
  have hloop := h.loop
  rw [hreturned] at hloop
  exact hloop

theorem Inv.batch_eq (h : Inv C mode calls s) (haborted : s.aborted = false)
    (hreturned : s.loop = .returned batch) : batch = batchOf (calls.map (outcome C)) := by
  obtain ⟨hcomplete, hended, rfl⟩ := h.returned hreturned
  rw [h.outcomes haborted hcomplete hended]

def ToolResultMessage.answers (message : ToolResultMessage) : String × String :=
  (message.toolCallId, message.toolName)

def ToolCall.asked (toolCall : ToolCall) : String × String :=
  (toolCall.id, toolCall.name)

theorem answers_eq (finalizedCalls : List Finalized) :
    (batchOf finalizedCalls).messages.map ToolResultMessage.answers
      = (finalizedCalls.map Finalized.toolCall).map ToolCall.asked := by
  simp only [batchOf, map_map]
  rfl

theorem Inv.answers (h : Inv C mode calls s) (hreturned : s.loop = .returned batch) :
    batch.messages.map ToolResultMessage.answers
      = (calls.take s.entries.length).map ToolCall.asked := by
  obtain ⟨-, hended, rfl⟩ := h.returned hreturned
  rw [answers_eq, h.toolCalls_eq hended]

theorem mem_trace {events : List Event} {event : Event} (hindex : event.index? = some index) :
    event ∈ events ↔ event ∈ trace index events := by
  rw [trace, mem_filter, decide_eq_true hindex]
  simp

theorem closing_of_ended {phase : Phase Args} (h : phase.isEnded = true) :
    ∃ finalized, phase = .ended finalized ∧
      phase.closing index = [.toolExecutionEnd index finalized] := by
  cases phase with
  | ended finalized => exact ⟨finalized, rfl, rfl⟩
  | _ => cases h

theorem closing_length (phase : Phase Args) :
    phase.closing index = [] ∨
      ∃ finalized, phase.closing index = [.toolExecutionEnd index finalized] := by
  cases phase with
  | ending finalized => exact .inr ⟨finalized, rfl⟩
  | ended finalized => exact .inr ⟨finalized, rfl⟩
  | _ => exact .inl rfl

theorem Inv.end_mem_iff (h : Inv C mode calls s)
    (hended : ∀ phase ∈ s.entries, phase.isEnded = true) (finalized : Finalized) :
    .toolExecutionEnd index finalized ∈ s.events ↔ s.finalizedCalls[index]? = some finalized := by
  rw [@mem_trace index _ _ rfl]
  have hget : s.entries[index]? = s.finalizedCalls[index]?.map Phase.ended := by
    conv_lhs => rw [entries_eq_map hended, getElem?_map]
    rfl
  cases hf : s.finalizedCalls[index]? with
  | none =>
    have hi := List.getElem?_eq_none_iff.mp hf
    rw [Inv.length_finalizedCalls hended] at hi
    rw [h.fresh index hi]
    simp
  | some f =>
    rw [hf] at hget
    obtain ⟨toolCall, -, -, partials, htraced⟩ := h.entries index _ hget
    rw [htraced]
    simp [Phase.closing, eq_comm]

theorem shouldTerminate_iff (finalizedCalls : List Finalized) :
    shouldTerminateToolBatch finalizedCalls = true ↔ finalizedCalls ≠ [] ∧
      ∀ finalized ∈ finalizedCalls, finalized.result.terminate = some true := by
  simp [shouldTerminateToolBatch]

theorem Inv.terminate_iff (h : Inv C mode calls s) (hreturned : s.loop = .returned batch)
    (haborted : s.aborted = false) :
    batch.terminate = true ↔ calls ≠ [] ∧
      ∀ index finalized, .toolExecutionEnd index finalized ∈ s.events →
        finalized.result.terminate = some true := by
  obtain ⟨hcomplete, hended, rfl⟩ := h.returned hreturned
  show shouldTerminateToolBatch s.finalizedCalls = true ↔ _
  rw [shouldTerminate_iff]
  refine and_congr ?_ ⟨fun hall index finalized hmem => ?_, fun hall finalized hmem => ?_⟩
  · rw [h.outcomes haborted hcomplete hended, Ne, map_eq_nil_iff]
  · exact hall finalized (mem_of_getElem? ((h.end_mem_iff hended finalized).mp hmem))
  · obtain ⟨index, hindex, hget⟩ := List.mem_iff_getElem.mp hmem
    refine hall index finalized ((h.end_mem_iff hended finalized).mpr ?_)
    rw [getElem?_eq_getElem hindex, hget]

/-- What a batch of calls leaves behind, in both ways to execute it. -/
structure SameTranscript (C : ToolConfig Args) (calls : List ToolCall) : Prop where
  /-- The same messages and the same flag. -/
  batch : ∀ (s₁ s₂ : Execution Args) (batch₁ batch₂ : Batch),
    Reached C .sequential calls s₁ → Reached C .parallel calls s₂ →
    s₁.aborted = false → s₂.aborted = false →
    s₁.loop = .returned batch₁ → s₂.loop = .returned batch₂ → batch₁ = batch₂
  /-- One message a call, in call order. -/
  complete : ∀ (mode : Mode) (s : Execution Args) (batch : Batch),
    Reached C mode calls s → s.aborted = false → s.loop = .returned batch →
    batch.messages.map ToolResultMessage.answers = calls.map ToolCall.asked
  terminate : ∀ (mode : Mode) (s : Execution Args) (batch : Batch),
    Reached C mode calls s → s.aborted = false → s.loop = .returned batch →
    (batch.terminate = true ↔ calls ≠ [] ∧
      ∀ index finalized, .toolExecutionEnd index finalized ∈ s.events →
        finalized.result.terminate = some true)
  /-- A start, updates, and an end; all of them at last. -/
  events : ∀ (mode : Mode) (s : Execution Args) (index : Nat) (toolCall : ToolCall),
    Reached C mode calls s → calls[index]? = some toolCall →
    (trace index s.events = [] ∨ Traced s.events index toolCall [] ∨
      ∃ finalized, Traced s.events index toolCall [.toolExecutionEnd index finalized]) ∧
    (s.aborted = false → (∃ batch, s.loop = .returned batch) →
      ∃ finalized, Traced s.events index toolCall [.toolExecutionEnd index finalized])
  /-- The calls without a result are the last ones, aborted or not. -/
  suffix : ∀ (mode : Mode) (s : Execution Args) (batch : Batch),
    Reached C mode calls s → s.loop = .returned batch →
    ∃ count, batch.messages.map ToolResultMessage.answers = (calls.take count).map ToolCall.asked ∧
      ∀ index, index < calls.length →
        ((∃ finalized, .toolExecutionEnd index finalized ∈ s.events) ↔ index < count)
  /-- Every run returns, in whatever order the tools are done. -/
  returns : ∀ (mode : Mode) (s : Execution Args), Reached C mode calls s →
    Inevitable (Execution.step C mode calls) own (fun s => ∃ batch, s.loop = .returned batch) s

theorem Inv.events (h : Inv C mode calls s) (hcall : calls[index]? = some toolCall) :
    trace index s.events = [] ∨ Traced s.events index toolCall [] ∨
      ∃ finalized, Traced s.events index toolCall [.toolExecutionEnd index finalized] := by
  cases hentry : s.entries[index]? with
  | none => exact .inl (h.fresh index (List.getElem?_eq_none_iff.mp hentry))
  | some phase =>
    obtain ⟨toolCall', hcall', -, htraced⟩ := h.entries index phase hentry
    obtain rfl := Option.some.inj (hcall'.symm.trans hcall)
    rcases @closing_length _ index phase with hnone | ⟨finalized, hone⟩
    · exact .inr (.inl (hnone ▸ htraced))
    · exact .inr (.inr ⟨finalized, hone ▸ htraced⟩)

theorem Inv.all_ended (h : Inv C mode calls s) (haborted : s.aborted = false)
    (hreturned : s.loop = .returned batch) (hcall : calls[index]? = some toolCall) :
    ∃ finalized, Traced s.events index toolCall [.toolExecutionEnd index finalized] := by
  obtain ⟨hcomplete, hended, -⟩ := h.returned hreturned
  have hlength : s.entries.length = calls.length :=
    hcomplete.resolve_right (by rw [haborted]; exact Bool.false_ne_true)
  have hlt : index < s.entries.length := hlength ▸ (List.getElem?_eq_some_iff.mp hcall).1
  have hentry := getElem?_eq_getElem hlt
  obtain ⟨toolCall', hcall', -, htraced⟩ := h.entries index _ hentry
  obtain rfl := Option.some.inj (hcall'.symm.trans hcall)
  obtain ⟨finalized, -, hclosing⟩ := @closing_of_ended _ index _ (hended _ (mem_of_getElem? hentry))
  exact ⟨finalized, hclosing ▸ htraced⟩

theorem Inv.ended_iff (h : Inv C mode calls s) (hreturned : s.loop = .returned batch) :
    (∃ finalized, .toolExecutionEnd index finalized ∈ s.events) ↔ index < s.entries.length := by
  obtain ⟨-, hended, -⟩ := h.returned hreturned
  rw [← Inv.length_finalizedCalls hended]
  constructor
  · intro ⟨finalized, hmem⟩
    exact (List.getElem?_eq_some_iff.mp ((h.end_mem_iff hended finalized).mp hmem)).1
  · intro hlt
    exact ⟨s.finalizedCalls[index], (h.end_mem_iff hended _).mpr (getElem?_eq_getElem hlt)⟩

theorem Inv.returns (h : Inv C mode calls s) :
    Inevitable (Execution.step C mode calls) own
      (fun s => ∃ batch, s.loop = .returned batch) s :=
  Inevitable.of_measure (left calls) (fun _ _ _ hinv _ hs => hinv.step hs)
    (fun _ _ _ _ hown hs => left_lt hown hs) (fun _ hinv hopen => hinv.goes_on hopen) h

/-- **Both ways to execute the calls of a message leave the same transcript.** -/
theorem parallel_same_as_sequential (C : ToolConfig Args) (calls : List ToolCall) :
    SameTranscript C calls where
  batch s₁ s₂ batch₁ batch₂ h₁ h₂ ha₁ ha₂ hr₁ hr₂ := by
    rw [h₁.inv.batch_eq ha₁ hr₁, h₂.inv.batch_eq ha₂ hr₂]
  complete mode s batch h haborted hreturned := by
    rw [h.inv.batch_eq haborted hreturned, answers_eq]
    have hcalls : (calls.map (outcome C)).map Finalized.toolCall = calls := by
      rw [map_map]
      exact (map_congr_left fun toolCall _ => outcome_toolCall toolCall).trans (map_id _)
    rw [hcalls]
  terminate mode s batch h haborted hreturned := h.inv.terminate_iff hreturned haborted
  events mode s index toolCall h hcall :=
    ⟨h.inv.events hcall, fun haborted ⟨_, hreturned⟩ =>
      h.inv.all_ended haborted hreturned hcall⟩
  suffix mode s batch h hreturned :=
    ⟨s.entries.length, h.inv.answers hreturned, fun _ _ => h.inv.ended_iff hreturned⟩
  returns mode s h := h.inv.returns

end ReflectivePi.Agent
