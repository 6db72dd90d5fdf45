import ReflectivePi.Requests.Transform

/-!
# Requests — Turns

A transcript as its turns, an assistant message with the results given to
it, and a request as its blocks, an assistant message with the results right
after it. The second pass makes a block of each turn.
-/

namespace ReflectivePi.Requests

open List

/-! ## Turns and blocks -/

/-- An assistant message and results that belong to it. -/
structure Turn where
  assistant : AssistantMessage
  results : List ToolResultMessage

/-- The results up to the next assistant or user message. -/
def given : List Message → List ToolResultMessage
  | .toolResult r :: rest => r :: given rest
  | .system _ :: rest => given rest
  | _ => []

/-- The assistant messages that were not stopped, each with what was given
to it. -/
def turns : List Message → List Turn
  | [] => []
  | .assistant m :: rest =>
    if m.stopped then turns rest else ⟨m, given rest⟩ :: turns rest
  | _ :: rest => turns rest

/-- The results a list starts with. -/
def leading : List Message → List ToolResultMessage
  | .toolResult r :: rest => r :: leading rest
  | _ => []

/-- Every assistant message with the results that immediately follow. -/
def blocks : List Message → List Turn
  | [] => []
  | .assistant m :: rest => ⟨m, leading rest⟩ :: blocks rest
  | _ :: rest => blocks rest

def Message.toolResult? : Message → Option ToolResultMessage
  | .toolResult r => some r
  | _ => none

def Message.isSystemOrUser : Message → Bool
  | .system _ => true
  | .user _ => true
  | _ => false

/-- Each result follows, with only results and system messages in between,
a message that was not stopped and contains its call, and is the only one
for that call; `waiting` are the calls without one. The calls of one
message have distinct ids. -/
def WellPosed : List String → List Message → Prop
  | _, [] => True
  | waiting, .toolResult r :: rest =>
    r.toolCallId ∈ waiting ∧ WellPosed (waiting.erase r.toolCallId) rest
  | waiting, .system _ :: rest => WellPosed waiting rest
  | _, .user _ :: rest => WellPosed [] rest
  | _, .assistant m :: rest =>
    m.callIds.Nodup ∧ WellPosed (if m.stopped then [] else m.callIds) rest

instance instDecidableWellPosed : (waiting : List String) →
    (messages : List Message) → Decidable (WellPosed waiting messages)
  | _, [] => isTrue trivial
  | _, .toolResult _ :: rest =>
    @instDecidableAnd _ _ inferInstance (instDecidableWellPosed _ rest)
  | waiting, .system _ :: rest => instDecidableWellPosed waiting rest
  | _, .user _ :: rest => instDecidableWellPosed [] rest
  | _, .assistant _ :: rest =>
    @instDecidableAnd _ _ inferInstance (instDecidableWellPosed _ rest)

/-! ## The second pass -/

/-- The results put in for the calls that have none. -/
def missing (pending : List ToolCall) (seen : List String) : List ToolResultMessage :=
  (pending.filter fun tc => decide (tc.id ∉ seen)).map noResultProvided

/-- What the second pass still puts out, from its variables on. -/
def emitted : List ToolCall → List String → List SystemMessage → List Message → List Message
  | pending, seen, held, [] =>
    (missing pending seen).map .toolResult ++ held.map .system
  | pending, seen, held, .toolResult r :: rest =>
    .toolResult r :: emitted pending (r.toolCallId :: seen) held rest
  | pending, seen, held, .system m :: rest =>
    if pending = [] then .system m :: emitted pending seen held rest
    else emitted pending seen (held ++ [m]) rest
  | pending, seen, held, .user m :: rest =>
    (missing pending seen).map .toolResult ++ held.map .system
      ++ .user m :: emitted [] (if pending = [] then seen else []) [] rest
  | pending, seen, held, .assistant m :: rest =>
    let seen' := if pending = [] then seen else []
    (missing pending seen).map .toolResult ++ held.map .system
      ++ if m.stopped then emitted [] seen' [] rest
        else .assistant m :: emitted m.toolCalls (if m.toolCalls = [] then seen' else []) [] rest

theorem Pass.missing_eq (p : Pass) :
    p.missing = Requests.missing p.pendingToolCalls p.existingToolResultIds := rfl

theorem foldl_step_result (p : Pass) (messages : List Message) :
    (messages.foldl Pass.step p).closePendingToolCalls.result
      = p.result ++ emitted p.pendingToolCalls p.existingToolResultIds
          p.heldSystemMessages messages := by
  induction messages generalizing p with
  | nil =>
    simp [Pass.closePendingToolCalls, emitted, Pass.missing_eq]
  | cons message rest ih =>
    rw [foldl_cons, ih]
    obtain ⟨result, pending, seen, held⟩ := p
    cases message with
    | toolResult r => simp [Pass.step, Pass.push, emitted]
    | system m =>
      by_cases hpending : pending = []
      · simp [Pass.step, Pass.push, emitted, hpending]
      · simp [Pass.step, emitted, hpending]
    | user m =>
      simp [Pass.step, Pass.push, Pass.closePendingToolCalls, Pass.missing_eq, emitted]
    | assistant m =>
      by_cases hstopped : m.stopped
      · simp [Pass.step, Pass.closePendingToolCalls, Pass.missing_eq, emitted, hstopped]
      · by_cases hcalls : m.toolCalls = []
        · simp [Pass.step, Pass.push, Pass.closePendingToolCalls,
            Pass.missing_eq, emitted, hstopped, hcalls]
        · simp [Pass.step, Pass.push, Pass.closePendingToolCalls,
            Pass.missing_eq, emitted, hstopped, hcalls]

theorem secondPass_eq (transformed : List Message) :
    secondPass transformed = emitted [] [] [] transformed :=
  foldl_step_result Pass.start transformed

/-- Results occur only where a message with tool calls is under way. -/
def Placed : Bool → List Message → Prop
  | _, [] => True
  | underWay, .toolResult _ :: rest => underWay = true ∧ Placed underWay rest
  | underWay, .system _ :: rest => Placed underWay rest
  | _, .user _ :: rest => Placed false rest
  | _, .assistant m :: rest =>
    Placed (!m.stopped && !m.toolCalls.isEmpty) rest

theorem given_of_placed_false {messages : List Message}
    (h : Placed false messages) : given messages = [] := by
  induction messages with
  | nil => rfl
  | cons message rest ih =>
    cases message with
    | toolResult r => exact absurd h.1 Bool.false_ne_true
    | system m => exact ih h
    | user m => rfl
    | assistant m => rfl

variable {pending : List ToolCall}

theorem missing_congr {seen seen' : List String} (h : ∀ id, id ∈ seen ↔ id ∈ seen') :
    missing pending seen = missing pending seen' := by
  unfold missing
  congr 1
  exact filter_congr fun tc _ => by simp only [h]

theorem leading_append_toolResults (results : List ToolResultMessage) (rest : List Message) :
    leading (results.map .toolResult ++ rest) = results ++ leading rest := by
  induction results with
  | nil => rfl
  | cons r results ih =>
    show r :: leading (results.map .toolResult ++ rest) = _
    rw [ih, cons_append]

theorem blocks_append_toolResults (results : List ToolResultMessage) (rest : List Message) :
    blocks (results.map .toolResult ++ rest) = blocks rest := by
  induction results with
  | nil => rfl
  | cons r results ih => exact ih

theorem blocks_append_systems (held : List SystemMessage) (rest : List Message) :
    blocks (held.map .system ++ rest) = blocks rest := by
  induction held with
  | nil => rfl
  | cons m held ih => exact ih

variable {held : List SystemMessage}

theorem leading_append_systems (rest : List Message)
    (h : leading rest = []) : leading (held.map .system ++ rest) = [] := by
  cases held with
  | nil => exact h
  | cons m held => rfl

variable {seen : List String}

/-- The results right after a message are the ones given to it and those put
in. Without pending calls nothing is held, and there are none. -/
theorem leading_emitted {messages : List Message}
    (hplaced : Placed (!pending.isEmpty) messages) (hheld : pending = [] → held = []) :
    leading (emitted pending seen held messages) = given messages ++ missing pending
          ((given messages).map ToolResultMessage.toolCallId ++ seen) := by
  induction messages generalizing pending seen held with
  | nil =>
    rw [emitted, leading_append_toolResults]
    have hnone : leading (held.map Message.system) = [] := by
      simpa using @leading_append_systems held [] rfl
    rw [hnone, append_nil]
    rfl
  | cons message rest ih =>
    cases message with
    | toolResult r =>
      rw [emitted, leading, ih hplaced.2 hheld, given, cons_append]
      congr 2
      refine missing_congr fun id => ?_
      simp only [map_cons, mem_append, mem_cons, cons_append]
      tauto
    | system m =>
      rw [emitted]
      split
      · rename_i hpending
        subst hpending
        have hgiven := @given_of_placed_false rest hplaced
        show [] = given rest ++ []
        rw [hgiven, append_nil]
      · rename_i hpending
        exact ih hplaced fun hnil => absurd hnil hpending
    | user m =>
      rw [emitted, append_assoc, leading_append_toolResults,
        leading_append_systems _ rfl, append_nil]
      rfl
    | assistant m =>
      rw [emitted, append_assoc, leading_append_toolResults, leading_append_systems, append_nil]
      · rfl
      · split
        · rename_i hstopped
          have hrest : Placed false rest := by
            have h := hplaced
            rw [Placed, hstopped] at h
            exact h
          rw [@ih [] _ _ hrest fun _ => rfl, given_of_placed_false hrest]
          rfl
        · rfl

/-- A turn with the results it lacks. -/
def Turn.complete (turn : Turn) : Turn where
  assistant := turn.assistant
  results := turn.results ++ missing turn.assistant.toolCalls
    (turn.results.map ToolResultMessage.toolCallId)

theorem blocks_emitted {messages : List Message} (hplaced : Placed (!pending.isEmpty) messages) :
    blocks (emitted pending seen held messages) = (turns messages).map Turn.complete := by
  induction messages generalizing pending seen held with
  | nil =>
    rw [emitted, blocks_append_toolResults]
    simpa [turns, blocks] using blocks_append_systems held []
  | cons message rest ih =>
    cases message with
    | toolResult r => exact ih hplaced.2
    | system m =>
      rw [emitted]
      split
      · exact ih hplaced
      · exact ih hplaced
    | user m =>
      rw [emitted, append_assoc, blocks_append_toolResults, blocks_append_systems]
      exact @ih [] _ _ hplaced
    | assistant m =>
      rw [emitted, append_assoc, blocks_append_toolResults, blocks_append_systems, turns]
      cases hstopped : m.stopped with
      | true =>
        rw [Placed, hstopped] at hplaced
        exact @ih [] _ _ hplaced
      | false =>
        rw [Placed, hstopped] at hplaced
        show Turn.mk m (leading (emitted m.toolCalls _ [] rest)) ::
          blocks (emitted m.toolCalls _ [] rest) = _
        rw [leading_emitted hplaced fun _ => rfl, ih hplaced, if_neg
          Bool.false_ne_true, map_cons, Turn.complete]
        cases hcalls : m.toolCalls with
        | nil => rfl
        | cons tc calls => simp

theorem leading_emitted_nil {messages : List Message} (hplaced : Placed false messages) :
    leading (emitted [] seen [] messages) = [] := by
  rw [@leading_emitted [] _ _ _ hplaced fun _ => rfl, given_of_placed_false hplaced]
  rfl

/-- Every result of a list is a leading one or in a block. -/
def Gathered (messages : List Message) : Prop :=
  messages.filterMap Message.toolResult?
    = leading messages ++ (blocks messages).flatMap Turn.results

theorem Gathered.closing {rest : List Message} (h : Gathered rest)
    (hleading : leading rest = []) (results : List ToolResultMessage) (held : List SystemMessage) :
    Gathered (results.map .toolResult ++ held.map .system ++ rest) := by
  have hresults : (results.map Message.toolResult).filterMap Message.toolResult? = results := by
    rw [filterMap_map]
    exact filterMap_some
  have hsystems : (held.map Message.system).filterMap Message.toolResult? = [] := by
    rw [filterMap_map]
    exact List.filterMap_eq_nil_iff.mpr fun _ _ => rfl
  rw [Gathered, append_assoc, leading_append_toolResults,
    leading_append_systems _ hleading, blocks_append_toolResults,
    blocks_append_systems, filterMap_append, filterMap_append, hresults, hsystems, h, hleading]
  simp

theorem gathered_emitted {messages : List Message}
    (hplaced : Placed (!pending.isEmpty) messages) (hheld : pending = [] → held = []) :
    Gathered (emitted pending seen held messages) := by
  induction messages generalizing pending seen held with
  | nil =>
    rw [emitted, ← append_nil (_ ++ _)]
    exact @Gathered.closing [] rfl rfl _ _
  | cons message rest ih =>
    cases message with
    | toolResult r =>
      show r :: (emitted pending (r.toolCallId :: seen) held rest).filterMap _ = _
      rw [ih hplaced.2 hheld]
      rfl
    | system m =>
      rw [emitted]
      split
      · rename_i hpending
        subst hpending
        obtain rfl := hheld rfl
        show (emitted [] seen [] rest).filterMap _ = [] ++ _
        have hrest : Placed false rest := hplaced
        rw [ih hplaced hheld, leading_emitted_nil hrest]
        rfl
      · rename_i hpending
        exact ih hplaced fun hnil => absurd hnil hpending
    | user m =>
      rw [emitted]
      refine Gathered.closing ?_ rfl _ _
      show (emitted [] _ [] rest).filterMap _ = [] ++ _
      rw [@ih [] _ _ hplaced fun _ => rfl, leading_emitted_nil hplaced]
      rfl
    | assistant m =>
      rw [emitted]
      rw [Placed] at hplaced
      split
      · rename_i hstopped
        rw [hstopped] at hplaced
        exact Gathered.closing (@ih [] _ _ hplaced fun _ => rfl) (leading_emitted_nil hplaced) _ _
      · rename_i hstopped
        rw [Bool.not_eq_true _ |>.mp hstopped] at hplaced
        refine Gathered.closing ?_ rfl _ _
        exact ih hplaced fun _ => rfl

theorem filter_emitted (pending : List ToolCall) (seen : List String)
    (messages : List Message) (hheld : pending = [] → held = []) :
    (emitted pending seen held messages).filter Message.isSystemOrUser
      = held.map .system ++ messages.filter Message.isSystemOrUser := by
  have hclosing (results : List ToolResultMessage) (held : List SystemMessage)
      (rest : List Message) :
      (results.map Message.toolResult ++ held.map Message.system ++ rest).filter
        Message.isSystemOrUser
        = held.map .system ++ rest.filter Message.isSystemOrUser := by
    simp [List.filter_append, filter_map, Function.comp_def, Message.isSystemOrUser]
  induction messages generalizing pending seen held with
  | nil =>
    rw [emitted, ← append_nil (_ ++ _), hclosing]
  | cons message rest ih =>
    cases message with
    | toolResult r => exact ih _ _ hheld
    | system m =>
      rw [emitted]
      split
      · rename_i hpending
        subst hpending
        obtain rfl := hheld rfl
        show Message.system m :: (emitted [] seen [] rest).filter _ = _
        rw [ih [] seen fun _ => rfl]
        rfl
      · rename_i hpending
        rw [ih _ _ fun hnil => absurd hnil hpending, map_append, append_assoc]
        rfl
    | user m =>
      rw [emitted, hclosing]
      show _ ++ Message.user m :: (emitted [] _ [] rest).filter _ = _
      rw [ih [] _ fun _ => rfl]
      rfl
    | assistant m =>
      rw [emitted, hclosing]
      congr 1
      split
      · exact ih [] _ fun _ => rfl
      · exact ih _ _ fun _ => rfl

theorem not_stopped_emitted {messages : List Message}
    {m : AssistantMessage} (hmem : .assistant m ∈ emitted pending seen held messages) :
    m.stopped = false := by
  have hclosing {results : List ToolResultMessage} {held : List SystemMessage}
      {rest : List Message} (hmem : Message.assistant m
        ∈ results.map Message.toolResult ++ held.map Message.system ++ rest) :
      Message.assistant m ∈ rest := by
    simpa using hmem
  induction messages generalizing pending seen held with
  | nil => simp [emitted] at hmem
  | cons message rest ih =>
    cases message with
    | toolResult r => exact ih (by simpa [emitted] using hmem)
    | system m =>
      rw [emitted] at hmem
      split at hmem
      · exact ih (by simpa using hmem)
      · exact ih hmem
    | user m =>
      rw [emitted] at hmem
      exact ih (by simpa using hclosing hmem)
    | assistant a =>
      rw [emitted] at hmem
      have hrest := hclosing hmem
      split at hrest
      · exact ih hrest
      · rename_i hstopped
        rcases List.mem_cons.mp hrest with heq | hrest
        · injection heq with heq
          rw [heq]
          exact Bool.not_eq_true _ |>.mp hstopped
        · exact ih hrest

section

variable {messages : List Message}

variable {waiting : List String}

theorem placed_of_wellPosed {underWay : Bool}
    (hway : waiting ≠ [] → underWay = true) (h : WellPosed waiting messages) :
    Placed underWay messages := by
  induction messages generalizing waiting underWay with
  | nil => trivial
  | cons message rest ih =>
    cases message with
    | toolResult r =>
      have hnonempty : waiting ≠ [] := ne_nil_of_mem h.1
      exact ⟨hway hnonempty, ih (fun _ => hway hnonempty) h.2⟩
    | system m => exact ih hway h
    | user m => exact ih (fun hne => absurd rfl hne) h
    | assistant m =>
      refine ih (fun hne => ?_) h.2
      split at hne
      · exact absurd rfl hne
      · rename_i hstopped
        have hcalls : m.toolCalls ≠ [] := fun hnil =>
          hne (congrArg (List.map ToolCall.id) hnil)
        simpa [hstopped] using hcalls

/-- A turn answers calls of its own message, each at most once. -/
structure Turn.Fair (turn : Turn) : Prop where
  calls : turn.assistant.callIds.Nodup
  once : (turn.results.map ToolResultMessage.toolCallId).Nodup
  own : ∀ r ∈ turn.results, r.toolCallId ∈ turn.assistant.callIds

theorem given_fair (hnodup : waiting.Nodup) (h : WellPosed waiting messages) :
    ((given messages).map ToolResultMessage.toolCallId).Nodup ∧
      ∀ r ∈ given messages, r.toolCallId ∈ waiting := by
  induction messages generalizing waiting with
  | nil => exact ⟨nodup_nil, fun r hr => nomatch hr⟩
  | cons message rest ih =>
    cases message with
    | toolResult r =>
      obtain ⟨hrest, hown⟩ := ih (hnodup.erase _) h.2
      refine ⟨List.nodup_cons.mpr ⟨fun hmem => ?_, hrest⟩, fun r' hr' => ?_⟩
      · obtain ⟨r', hr', heq⟩ := List.mem_map.mp hmem
        exact (hnodup.mem_erase_iff.mp (hown r' hr')).1 heq
      · rcases List.mem_cons.mp hr' with rfl | hr'
        · exact h.1
        · exact mem_of_mem_erase (hown r' hr')
    | system m => exact ih hnodup h
    | _ => exact ⟨nodup_nil, fun r hr => nomatch hr⟩

theorem turns_fair (h : WellPosed waiting messages) : ∀ turn ∈ turns messages, turn.Fair := by
  induction messages generalizing waiting with
  | nil => exact fun _ h => nomatch h
  | cons message rest ih =>
    cases message with
    | toolResult r => exact ih h.2
    | system m => exact ih h
    | user m => exact ih h
    | assistant m =>
      rw [turns]
      obtain ⟨hcalls, hrest⟩ := h
      split
      · exact ih hrest
      · rename_i hstopped
        rw [if_neg hstopped] at hrest
        intro turn hturn
        rcases List.mem_cons.mp hturn with rfl | hturn
        · obtain ⟨honce, hown⟩ := given_fair hcalls hrest
          exact ⟨hcalls, honce, hown⟩
        · exact ih hrest turn hturn

end

end ReflectivePi.Requests
