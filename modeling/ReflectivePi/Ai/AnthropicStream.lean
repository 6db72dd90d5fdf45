import ReflectivePi.Frames.Faithful

/-!
# Ai — Anthropic stream

The blocks of a response while its events come in. A block is found by its
index until it stops, and `partialJson` collects the input of a tool call.
-/

namespace ReflectivePi.Ai.Anthropic

open List
open Delta (JsString js)
open Frames (ContentBlock JsonText JsonValue emptyObject)

variable {ν : Type}

/-! ## Events -/

inductive StartBlock (ν : Type) where
  | text (text : Option JsString)
  | thinking (thinking signature : Option JsString)
  | redactedThinking (data : JsString)
  | toolUse (id name : JsString) (input : JsonValue ν)
  | fallback
  | other

inductive BlockDelta where
  | text (text : JsString)
  | thinking (thinking : JsString)
  | inputJson (partialJson : JsString)
  | signature (signature : JsString)
  | other

inductive StopReason where
  | pending
  | stop
  | length
  | toolUse
  | error
  | aborted
  | deferred
  deriving DecidableEq

/-- The stop reason of a `message_delta` is what `mapStopReason` makes of it. -/
inductive Event (ν : Type) where
  | messageStart
  | contentBlockStart (index : Nat) (block : StartBlock ν)
  | contentBlockDelta (index : Nat) (delta : BlockDelta)
  | contentBlockStop (index : Nat)
  | messageDelta (stop : Option (StopReason × Option String))
  | messageStop

def Event.isMessageStart : Event ν → Bool
  | .messageStart => true
  | _ => false

def Event.isMessageStop : Event ν → Bool
  | .messageStop => true
  | _ => false

/-! ## The stream -/

structure Block (ν : Type) where
  content : ContentBlock ν
  index : Option Nat
  partialJson : Option JsString

structure Output (ν : Type) where
  content : List (Block ν) := []
  stopReason : StopReason := .pending
  errorMessage : Option String := none

section

variable (T : JsonText ν) (toolName : JsString → JsString)

def StartBlock.content : StartBlock ν → Option (ContentBlock ν)
  | .text value => some (.text ⟨value.getD [], none⟩)
  | .thinking value signature => some (.thinking ⟨value.getD [], some (signature.getD []), none⟩)
  | .redactedThinking data => some (.thinking ⟨js "[Reasoning redacted]", some data, some true⟩)
  | .toolUse id name input =>
    some (.toolCall ⟨id, toolName name, JsonText.orEmpty input, none, none⟩)
  | .fallback | .other => none

def newBlock (index : Nat) (content : ContentBlock ν) : Block ν where
  content
  index := some index
  partialJson := match content with
    | .toolCall _ => some []
    | _ => none

def Block.apply (delta : BlockDelta) (block : Block ν) : Block ν :=
  match delta, block.content with
  | .text text, .text content =>
    { block with content := .text { content with text := content.text ++ text } }
  | .thinking thinking, .thinking content =>
    { block with content := .thinking { content with thinking := content.thinking ++ thinking } }
  | .inputJson json, .toolCall call =>
    let partialJson := block.partialJson.getD [] ++ json
    { block with
      content := .toolCall { call with arguments := T.parseStreamingJson partialJson }
      partialJson := some partialJson }
  | .signature signature, .thinking content =>
    { block with content := .thinking { content with
        thinkingSignature := some (content.thinkingSignature.getD [] ++ signature) } }
  | _, _ => block

def Block.stop (block : Block ν) : Block ν :=
  match block.content with
  | .toolCall call =>
    { content := .toolCall { call with
        arguments := T.parseStreamingJson (block.partialJson.getD []) }
      index := none
      partialJson := none }
  | _ => { block with index := none }

/-- The scratch fields are taken away. -/
def Block.strip (block : Block ν) : Block ν := { block with index := none, partialJson := none }

/-- The block that `findIndex` finds is changed in its place. -/
def updateBlock (index : Nat) (change : Block ν → Block ν) : List (Block ν) → List (Block ν)
  | [] => []
  | block :: blocks =>
    if block.index = some index then change block :: blocks
    else block :: updateBlock index change blocks

def Output.receive (output : Output ν) : Event ν → Output ν
  | .contentBlockStart index block =>
    match block.content toolName with
    | some content => { output with content := output.content ++ [newBlock index content] }
    | none => output
  | .contentBlockDelta index delta =>
    { output with content := updateBlock index (Block.apply T delta) output.content }
  | .contentBlockStop index =>
    { output with content := updateBlock index (Block.stop T) output.content }
  | .messageDelta (some (stopReason, errorMessage)) =>
    { output with stopReason, errorMessage := errorMessage.or output.errorMessage }
  | _ => output

/-- The loop over the events, and the error that ends it. -/
def processEvents (output : Output ν) : List (Event ν) → Output ν × Option String
  | [] => (output, none)
  | .contentBlockStart _ .fallback :: events =>
    if output.content.isEmpty then processEvents output events
    else (output, some "Anthropic performed an unsupported mid-output model fallback")
  | event :: events => processEvents (output.receive T toolName event) events

/-- What is thrown behind the last event. -/
def endError (events : List (Event ν)) (aborted : Bool) (output : Output ν) : Option String :=
  if events.any Event.isMessageStart && !events.any Event.isMessageStop then
    some "Anthropic stream ended before message_stop"
  else if aborted then some "Request was aborted"
  else
    match output.stopReason with
    | .pending => some "Anthropic stream ended without a stop reason"
    | .aborted | .error => some (output.errorMessage.getD "An unknown error occurred")
    | _ => none

/-- `failure` is what reading the events throws, and `aborted` the signal at the end. -/
def stream (events : List (Event ν)) (failure : Option String) (aborted : Bool) : Output ν :=
  let (output, thrown) := processEvents T toolName {} events
  match (thrown.or failure).or (endError events aborted output) with
  | none => output
  | some message =>
    { content := output.content.map Block.strip
      stopReason := if aborted then .aborted else .error
      errorMessage := some message }

end

/-! ## Well-formed events -/

/-- What may come next: the start of a block with its own index, deltas and a stop
of an open block, and the end of the message when no block is open. -/
def Follows (before : List (Event ν)) : Event ν → Prop
  | .contentBlockStart index _ => .messageStart ∈ before ∧ .messageStop ∉ before ∧
    ∀ block, .contentBlockStart index block ∉ before
  | .contentBlockDelta index _ | .contentBlockStop index =>
    (∃ block, .contentBlockStart index block ∈ before) ∧ .contentBlockStop index ∉ before
  | .messageStop =>
    ∀ index block, .contentBlockStart index block ∈ before → .contentBlockStop index ∈ before
  | _ => True

inductive WellFormed : List (Event ν) → Prop
  | nil : WellFormed []
  | concat {before : List (Event ν)} {event : Event ν} : WellFormed before →
    Follows before event → WellFormed (before ++ [event])

/-- The events up to a fallback behind the start of a block. -/
def received (started : Bool) : List (Event ν) → List (Event ν)
  | [] => []
  | .contentBlockStart index .fallback :: events =>
    if started then [] else .contentBlockStart index .fallback :: received started events
  | event :: events =>
    event :: received (started || match event with
      | .contentBlockStart _ block => (block.content id).isSome
      | _ => false) events

/-! ## What the blocks should be -/

def starts (toolName : JsString → JsString) (events : List (Event ν)) :
    List (Nat × ContentBlock ν) :=
  events.filterMap fun
    | .contentBlockStart index block => (block.content toolName).map (index, ·)
    | _ => none

def deltas (read : BlockDelta → Option JsString) (index : Nat) (events : List (Event ν)) :
    List JsString :=
  events.filterMap fun
    | .contentBlockDelta i delta => if i = index then read delta else none
    | _ => none

def stopped (index : Nat) (events : List (Event ν)) : Bool :=
  events.any fun
    | .contentBlockStop i => i = index
    | _ => false

def BlockDelta.text? : BlockDelta → Option JsString
  | .text value => some value
  | _ => none

def BlockDelta.thinking? : BlockDelta → Option JsString
  | .thinking value => some value
  | _ => none

def BlockDelta.inputJson? : BlockDelta → Option JsString
  | .inputJson json => some json
  | _ => none

def BlockDelta.signature? : BlockDelta → Option JsString
  | .signature value => some value
  | _ => none

/-- The start value with the deltas behind it, and the input that came in deltas, if
any did. -/
def expected (T : JsonText ν) (events : List (Event ν)) : Nat × ContentBlock ν → ContentBlock ν
  | (index, .text content) =>
    .text { content with text := content.text ++ (deltas BlockDelta.text? index events).flatten }
  | (index, .thinking content) =>
    .thinking { content with
      thinking := content.thinking ++ (deltas BlockDelta.thinking? index events).flatten
      thinkingSignature := some (content.thinkingSignature.getD [] ++
        (deltas BlockDelta.signature? index events).flatten) }
  | (index, .toolCall call) =>
    .toolCall (match deltas BlockDelta.inputJson? index events with
      | [] => call
      | json => { call with arguments := T.parseStreamingJson json.flatten })

/-- The message holds the blocks that were received, without their scratch fields. -/
def Holds (T : JsonText ν) (toolName : JsString → JsString) (events : List (Event ν))
    (output : Output ν) : Prop :=
  output.content.map Block.content = (starts toolName events).map (expected T events) ∧
    ∀ block ∈ output.content, block.index = none ∧ block.partialJson = none

/-! ## What one event changes -/

section

variable {T : JsonText ν} {toolName : JsString → JsString} {events before : List (Event ν)}
  {event : Event ν} {index : Nat} {start : Nat × ContentBlock ν} {output : Output ν}

/-- A block as it is while the events come in. -/
def tracked (T : JsonText ν) (events : List (Event ν)) (start : Nat × ContentBlock ν) :
    Block ν where
  content := match start.2 with
    | .toolCall call =>
      if deltas BlockDelta.inputJson? start.1 events = [] ∧ stopped start.1 events = true then
        .toolCall { call with arguments := T.parseStreamingJson [] }
      else expected T events start
    | _ => expected T events start
  index := if stopped start.1 events then none else some start.1
  partialJson := match start.2 with
    | .toolCall _ =>
      if stopped start.1 events then none
      else some (deltas BlockDelta.inputJson? start.1 events).flatten
    | _ => none

theorem stopped_iff : stopped index events = true ↔ .contentBlockStop index ∈ events := by
  rw [stopped, any_eq_true]
  constructor
  · rintro ⟨event, hmem, heq⟩
    cases event with
    | contentBlockStop i => exact of_decide_eq_true heq ▸ hmem
    | _ => cases heq
  · exact fun hmem => ⟨_, hmem, decide_eq_true rfl⟩

theorem deltas_append (read : BlockDelta → Option JsString) (more : List (Event ν)) :
    deltas read index (events ++ more) = deltas read index events ++ deltas read index more :=
  filterMap_append

theorem stopped_append (more : List (Event ν)) :
    stopped index (events ++ more) = (stopped index events || stopped index more) :=
  any_append

theorem starts_append (more : List (Event ν)) :
    starts toolName (events ++ more) = starts toolName events ++ starts toolName more :=
  filterMap_append

theorem mem_starts {content : ContentBlock ν} : (index, content) ∈ starts toolName events ↔
    ∃ block, .contentBlockStart index block ∈ events ∧ block.content toolName = some content := by
  rw [starts, mem_filterMap]
  constructor
  · rintro ⟨event, hmem, heq⟩
    cases event with
    | contentBlockStart i block =>
      obtain ⟨content', hcontent, heq⟩ := Option.map_eq_some_iff.mp heq
      cases heq
      exact ⟨block, hmem, hcontent⟩
    | _ => cases heq
  · rintro ⟨block, hmem, hcontent⟩
    exact ⟨_, hmem, by simp [hcontent]⟩

theorem deltas_delta (read : BlockDelta → Option JsString) (i : Nat) (delta : BlockDelta) :
    deltas read i ([.contentBlockDelta index delta] : List (Event ν)) =
      if index = i then (read delta).toList else [] := by
  rw [deltas, filterMap_cons]
  split <;> rename_i h <;> split at h <;> simp_all

theorem tracked_delta (delta : BlockDelta) (hopen : stopped index events = false) :
    tracked T (events ++ [.contentBlockDelta index delta]) start =
      if (tracked T events start).index = some index then (tracked T events start).apply T delta
      else tracked T events start := by
  obtain ⟨i, content⟩ := start
  have hstopped : stopped i (events ++ [.contentBlockDelta index delta]) = stopped i events := by
    rw [stopped_append]
    exact Bool.or_false _
  by_cases heq : index = i
  · subst heq
    cases content with
    | toolCall call =>
      cases hjson : deltas BlockDelta.inputJson? index events <;> cases delta <;>
        simp [tracked, expected, Block.apply, deltas_append, deltas_delta, hstopped, hopen, hjson,
          BlockDelta.inputJson?]
    | text content =>
      cases delta <;> simp [tracked, expected, Block.apply, deltas_append, deltas_delta, hstopped,
        hopen, BlockDelta.text?]
    | thinking content =>
      cases delta <;> simp [tracked, expected, Block.apply, deltas_append, deltas_delta, hstopped,
        hopen, BlockDelta.thinking?, BlockDelta.signature?]
  · have hindex : (tracked T events (i, content)).index ≠ some index := by
      simp [tracked, Ne.symm heq]
    rw [if_neg hindex]
    cases content <;> simp [tracked, expected, deltas_append, deltas_delta, hstopped, heq]

theorem tracked_stop (hopen : stopped index events = false) :
    tracked T (events ++ [.contentBlockStop index]) start =
      if (tracked T events start).index = some index then (tracked T events start).stop T
      else tracked T events start := by
  obtain ⟨i, content⟩ := start
  have hdeltas (read : BlockDelta → Option JsString) :
      deltas read i (events ++ [.contentBlockStop index]) = deltas read i events := by
    rw [deltas_append]
    exact append_nil _
  by_cases heq : index = i
  · subst heq
    have hstopped : stopped index (events ++ [.contentBlockStop index]) = true :=
      stopped_iff.mpr (by simp)
    cases content with
    | toolCall call =>
      cases hjson : deltas BlockDelta.inputJson? index events <;>
        simp [tracked, expected, Block.stop, hdeltas, hstopped, hopen, hjson]
    | _ => simp [tracked, expected, Block.stop, hdeltas, hstopped, hopen]
  · have hstopped : stopped i (events ++ [.contentBlockStop index]) = stopped i events := by
      simp [stopped, heq]
    have hindex : (tracked T events (i, content)).index ≠ some index := by
      simp [tracked, Ne.symm heq]
    rw [if_neg hindex]
    cases content <;> simp [tracked, expected, hdeltas, hstopped]

theorem updateBlock_map (change : Block ν → Block ν) {l : List (Nat × ContentBlock ν)}
    (h : (l.map Prod.fst).Nodup) :
    updateBlock index change (l.map (tracked T events)) = l.map fun start =>
      if (tracked T events start).index = some index then change (tracked T events start)
      else tracked T events start := by
  have hindex (start : Nat × ContentBlock ν)
      (h : (tracked T events start).index = some index) : start.1 = index := by
    simp only [tracked] at h
    split at h
    · cases h
    · exact Option.some.inj h
  induction l with
  | nil => rfl
  | cons start l ih =>
    rw [map_cons, nodup_cons] at h
    rw [map_cons, updateBlock, map_cons]
    split
    · rename_i hfound
      refine congrArg (_ :: ·) (map_congr_left fun other hother => ?_)
      rw [if_neg]
      intro hsame
      refine h.1 ?_
      rw [hindex start hfound, ← hindex other hsame]
      exact mem_map_of_mem hother
    · rw [ih h.2]

theorem tracked_concat (hdeltas : ∀ read i, deltas read i [event] = [])
    (hstopped : ∀ i, stopped i [event] = false) :
    tracked T (events ++ [event]) = tracked T events := by
  funext ⟨i, content⟩
  cases content <;>
    simp [tracked, expected, deltas_append, stopped_append, hdeltas, hstopped]

/-! ## The blocks of a run -/

theorem WellFormed.fresh (h : WellFormed events)
    (hnone : ∀ block, .contentBlockStart index block ∉ events) :
    (∀ read, deltas read index events = []) ∧ stopped index events = false := by
  induction h with
  | nil => exact ⟨fun _ => rfl, rfl⟩
  | @concat before event _ hfollows ih =>
    obtain ⟨hdeltas, hstopped⟩ := ih fun block hmem => hnone block (mem_append_left _ hmem)
    have hne (i : Nat) (hstart : ∃ block, .contentBlockStart i block ∈ before) : i ≠ index := by
      rintro rfl
      obtain ⟨block, hmem⟩ := hstart
      exact hnone block (mem_append_left _ hmem)
    refine ⟨fun read => ?_, ?_⟩
    · rw [deltas_append, hdeltas]
      cases event with
      | contentBlockDelta i delta => rw [deltas_delta, if_neg (hne i hfollows.1)]; rfl
      | _ => rfl
    · rw [stopped_append, hstopped]
      cases event with
      | contentBlockStop i => simp [stopped, hne i hfollows.1]
      | _ => rfl

theorem WellFormed.starts_nodup (h : WellFormed events) :
    ((starts toolName events).map Prod.fst).Nodup := by
  induction h with
  | nil => exact nodup_nil
  | @concat before event _ hfollows ih =>
    rw [starts_append, map_append]
    cases event with
    | contentBlockStart i block =>
      refine List.nodup_append.mpr ⟨ih, ?_, fun j hj k hk => ?_⟩
      · cases hcontent : block.content toolName <;> simp [starts, hcontent]
      · obtain ⟨⟨_, content⟩, hmem, rfl⟩ := List.mem_map.mp hj
        obtain ⟨other, hother, _⟩ := mem_starts.mp hmem
        have hk : k = i := by
          cases hcontent : block.content toolName <;> simp [starts, hcontent] at hk
          exact hk
        rintro rfl
        exact hfollows.2.2 other (hk ▸ hother)
    | _ => simpa [starts] using ih

/-- **The blocks are those that started, each as its own events have made it.** -/
theorem WellFormed.content_eq (h : WellFormed events) :
    (events.foldl (Output.receive T toolName) {}).content =
      (starts toolName events).map (tracked T events) := by
  induction h with
  | nil => rfl
  | @concat before event hwell hfollows ih =>
    have hnodup := @WellFormed.starts_nodup ν toolName before hwell
    rw [foldl_append, foldl_cons, foldl_nil, starts_append]
    generalize before.foldl (Output.receive T toolName) {} = output at ih
    have hkeep (hcontent : (output.receive T toolName event).content = output.content)
        (hstarts : starts toolName [event] = []) (hdeltas : ∀ read i, deltas read i [event] = [])
        (hstopped : ∀ i, stopped i [event] = false) :
        (output.receive T toolName event).content =
          (starts toolName before ++ starts toolName [event]).map
            (tracked T (before ++ [event])) := by
      rw [tracked_concat hdeltas hstopped, hstarts, append_nil, hcontent, ih]
    cases event with
    | contentBlockStart i block =>
      obtain ⟨hdeltas, hstopped⟩ := hwell.fresh hfollows.2.2
      rw [Output.receive, tracked_concat (fun _ _ => rfl) fun _ => rfl, map_append, ← ih]
      cases block <;>
        simp [StartBlock.content, starts, tracked, expected, newBlock, hdeltas, hstopped]
    | contentBlockDelta i delta =>
      have hopen := Bool.eq_false_iff.mpr (mt stopped_iff.mp hfollows.2)
      rw [Output.receive, ih, updateBlock_map _ hnodup]
      refine Eq.trans ?_ (congrArg _ (append_nil _).symm)
      exact map_congr_left fun start _ => (tracked_delta delta hopen).symm
    | contentBlockStop i =>
      have hopen := Bool.eq_false_iff.mpr (mt stopped_iff.mp hfollows.2)
      rw [Output.receive, ih, updateBlock_map _ hnodup]
      refine Eq.trans ?_ (congrArg _ (append_nil _).symm)
      exact map_congr_left fun start _ => (tracked_stop hopen).symm
    | messageDelta stop => exact hkeep (by cases stop <;> rfl) rfl (fun _ _ => rfl) fun _ => rfl
    | _ => exact hkeep rfl rfl (fun _ _ => rfl) fun _ => rfl

/-! ## What is received -/

theorem received_prefix (started : Bool) (events : List (Event ν)) :
    received started events <+: events := by
  induction events generalizing started with
  | nil => exact prefix_refl _
  | cons event events ih =>
    unfold received
    split
    · exact nil_prefix
    · rename_i heq
      cases heq
      split
      · exact nil_prefix
      · exact (List.prefix_cons_inj _).mpr (ih _)
    · rename_i heq
      cases heq
      exact (List.prefix_cons_inj _).mpr (ih _)

theorem WellFormed.of_prefix (h : WellFormed events) ( hprefix : before <+: events) :
    WellFormed before := by
  induction h with
  | nil => exact List.prefix_nil.mp hprefix ▸ .nil
  | concat hwell hfollows ih =>
    rcases List.prefix_concat_iff.mp hprefix with rfl | hprefix
    · exact hwell.concat hfollows
    · exact ih hprefix

theorem updateBlock_isEmpty (change : Block ν → Block ν) (blocks : List (Block ν)) :
    (updateBlock index change blocks).isEmpty = blocks.isEmpty := by
  cases blocks with
  | nil => rfl
  | cons block blocks =>
    rw [updateBlock]
    split <;> rfl

theorem isEmpty_concat (blocks : List (Block ν)) (block : Block ν) :
    (blocks ++ [block]).isEmpty = false := by
  cases blocks <;> rfl

theorem processEvents_eq (output : Output ν) (events : List (Event ν)) :
    (processEvents T toolName output events).1 =
      (received (!output.content.isEmpty) events).foldl (Output.receive T toolName) output ∧
    ((processEvents T toolName output events).2 = none →
      received (!output.content.isEmpty) events = events) := by
  induction events generalizing output with
  | nil => exact ⟨rfl, fun _ => rfl⟩
  | cons event events ih =>
    have ih := ih (output.receive T toolName event)
    have hstep (h : processEvents T toolName output (event :: events) =
          processEvents T toolName (output.receive T toolName event) events)
        (h' : received (!output.content.isEmpty) (event :: events) = event ::
          received (!(output.receive T toolName event).content.isEmpty) events) :
        (processEvents T toolName output (event :: events)).1 =
          (received (!output.content.isEmpty) (event :: events)).foldl
            (Output.receive T toolName) output ∧
        ((processEvents T toolName output (event :: events)).2 = none →
          received (!output.content.isEmpty) (event :: events) = event :: events) := by
      rw [h, h']
      exact ⟨ih.1, fun hnone => congrArg (event :: ·) (ih.2 hnone)⟩
    cases event with
    | contentBlockStart i block =>
      cases block with
      | fallback =>
        by_cases hempty : output.content.isEmpty = true
        · exact hstep (by simp [processEvents, hempty, Output.receive, StartBlock.content])
            (by simp [received, hempty, Output.receive, StartBlock.content])
        · simp [processEvents, received, hempty]
      | other => exact hstep rfl (by simp [received, Output.receive, StartBlock.content])
      | _ => exact hstep rfl (by simp [received, Output.receive, StartBlock.content, newBlock,
          isEmpty_concat])
    | messageDelta stop => exact hstep rfl (by cases stop <;> simp [received, Output.receive])
    | _ => exact hstep rfl (by simp [received, Output.receive, updateBlock_isEmpty])

theorem WellFormed.stopped_of_messageStop (h : WellFormed events) (hstop : .messageStop ∈ events)
    {block : StartBlock ν} (hmem : .contentBlockStart index block ∈ events) :
    .contentBlockStop index ∈ events := by
  induction h with
  | nil => cases hmem
  | @concat before event _ hfollows ih =>
    rw [mem_append, mem_singleton] at hstop hmem ⊢
    rcases hstop with hstop | rfl
    · rcases hmem with hmem | rfl
      · exact .inl (ih hstop hmem)
      · exact absurd hstop hfollows.2.1
    · rcases hmem with hmem | hmem
      · exact .inl (hfollows _ _ hmem)
      · cases hmem

theorem WellFormed.stopped_of_done (h : WellFormed events) {aborted : Bool}
    (hdone : endError events aborted output = none) {block : StartBlock ν}
    (hmem : .contentBlockStart index block ∈ events) : .contentBlockStop index ∈ events := by
  have hstart : .messageStart ∈ events := by
    clear hdone
    induction h with
    | nil => cases hmem
    | concat _ hfollows ih =>
      rcases List.mem_append.mp hmem with hmem | hmem
      · exact mem_append_left _ (ih hmem)
      · cases List.mem_singleton.mp hmem
        exact mem_append_left _ hfollows.1
  refine h.stopped_of_messageStop ?_ hmem
  unfold endError at hdone
  split at hdone
  · cases hdone
  · rename_i hended
    rw [Bool.and_eq_true, not_and, Bool.not_eq_true, Bool.not_eq_false'] at hended
    obtain ⟨event, hevent, hstop⟩ := List.any_eq_true.mp
      (hended (List.any_eq_true.mpr ⟨_, hstart, rfl⟩))
    cases event with
    | messageStop => exact hevent
    | _ => cases hstop

theorem content_tracked (start : Nat × ContentBlock ν) :
    (tracked T events start).content = expected T events start ↔
      ∀ call, start.2 = .toolCall call → .contentBlockStop start.1 ∈ events →
        deltas BlockDelta.inputJson? start.1 events = [] → call.arguments = emptyObject := by
  obtain ⟨i, content⟩ := start
  cases content with
  | toolCall call =>
    by_cases hlost : deltas BlockDelta.inputJson? i events = [] ∧ stopped i events = true
    · have hcontent : (tracked T events (i, .toolCall call)).content =
          .toolCall { call with arguments := emptyObject } := if_pos hlost
      have hexpected : expected T events (i, .toolCall call) = .toolCall call := by
        simp only [expected, hlost.1]
      rw [hcontent, hexpected]
      constructor
      · rintro h _ ⟨⟩ - -
        exact (congrArg Frames.ToolCall.arguments (ContentBlock.toolCall.inj h)).symm
      · exact fun h => by rw [← h call rfl (stopped_iff.mp hlost.2) hlost.1]
    · simp only [tracked, if_neg hlost, true_iff]
      exact fun _ _ hstop hnone => absurd ⟨hnone, stopped_iff.mpr hstop⟩ hlost
  | _ => exact ⟨fun _ => nofun, fun _ => rfl⟩

end

/-- **The message holds what was received exactly when no input is lost**: a tool call
that stops without an input delta is given the empty input. -/
theorem stream_holds_iff (T : JsonText ν) (toolName : JsString → JsString)
    {events : List (Event ν)} (hwell : WellFormed events) (failure : Option String)
    (aborted : Bool) :
    Holds T toolName (received false events) (stream T toolName events failure aborted) ↔
      ∀ index call, (index, .toolCall call) ∈ starts toolName (received false events) →
        .contentBlockStop index ∈ received false events →
        deltas BlockDelta.inputJson? index (received false events) = [] →
          call.arguments = emptyObject := by
  have hreceived := hwell.of_prefix ( received_prefix false events)
  obtain ⟨houtput, hall⟩ := @processEvents_eq ν T toolName {} events
  have hblocks : (processEvents T toolName {} events).1.content =
      (starts toolName (received false events)).map (tracked T (received false events)) := by
    rw [houtput]
    exact hreceived.content_eq
  have hcontent : (stream T toolName events failure aborted).content.map Block.content =
      (starts toolName (received false events)).map fun start =>
        (tracked T (received false events) start).content := by
    unfold stream
    dsimp only
    split <;> simp [hblocks, Block.strip, Function.comp_def]
  have hscratch : ∀ block ∈ (stream T toolName events failure aborted).content,
      block.index = none ∧ block.partialJson = none := by
    intro block hblock
    unfold stream at hblock
    dsimp only at hblock
    split at hblock
    · rename_i hnone
      obtain ⟨hthrown, hdone⟩ := Option.or_eq_none_iff.mp hnone
      have hevents : received false events = events := hall (Option.or_eq_none_iff.mp hthrown).1
      rw [hblocks, hevents] at hblock
      obtain ⟨⟨index, content⟩, hmem, rfl⟩ := List.mem_map.mp hblock
      obtain ⟨start, hstart, -⟩ := mem_starts.mp hmem
      have hstopped : stopped index events = true :=
        stopped_iff.mpr (hwell.stopped_of_done hdone hstart)
      cases content <;> simp [tracked, hstopped]
    · obtain ⟨_, -, rfl⟩ := List.mem_map.mp hblock
      exact ⟨rfl, rfl⟩
  rw [Holds, hcontent, and_iff_left hscratch, map_inj_left]
  constructor
  · exact fun h index call hmem => (content_tracked (index, .toolCall call)).mp (h _ hmem) call rfl
  · rintro h ⟨index, content⟩ hmem
    refine (content_tracked _).mpr fun call hcall => ?_
    exact h index call (hcall ▸ hmem)

/-- A tool call that has an input when it starts. -/
def callStarted : List (Event Empty) :=
  [.messageStart, .contentBlockStart 0 (.toolUse [] [] (.arr []))]

theorem wellFormed_callStarted : WellFormed callStarted :=
  @WellFormed.concat _ [.messageStart] _ (@WellFormed.concat _ [] _ .nil trivial)
    ⟨by simp, by simp, by simp⟩

def callInput : List (Event Empty) :=
  callStarted ++ [.contentBlockDelta 0 (.inputJson Frames.sampleNull)]

theorem stream_holds_iff_sample :
    Holds Frames.sampleText id (received false (callInput ++ [.contentBlockStop 0]))
      (stream Frames.sampleText id (callInput ++ [.contentBlockStop 0]) none true) := by
  have hinput : WellFormed callInput := wellFormed_callStarted.concat
    (show Follows _ (.contentBlockDelta 0 _) from ⟨⟨_, .tail _ (.head _)⟩, by simp [callStarted]⟩)
  have hstopped : WellFormed (callInput ++ [.contentBlockStop 0]) := hinput.concat
    (show Follows _ (.contentBlockStop 0) from
      ⟨⟨_, .tail _ (.head _)⟩, by simp [callInput, callStarted]⟩)
  refine (stream_holds_iff Frames.sampleText id hstopped none true).mpr
    fun index call hmem _ hnone => ?_
  cases List.mem_singleton.mp hmem
  cases hnone

theorem not_stream_holds :
    WellFormed (callStarted ++ [.contentBlockStop 0]) ∧
      ¬ Holds Frames.sampleText id (received false (callStarted ++ [.contentBlockStop 0]))
        (stream Frames.sampleText id (callStarted ++ [.contentBlockStop 0]) none true) := by
  refine ⟨wellFormed_callStarted.concat (show Follows _ (.contentBlockStop 0) from
    ⟨⟨_, .tail _ (.head _)⟩, by simp [callStarted]⟩), fun h => ?_⟩
  have hcall : [ContentBlock.toolCall (⟨[], [], emptyObject, none, none⟩ : Frames.ToolCall Empty)] =
      [.toolCall ⟨[], [], .arr [], none, none⟩] := h.1
  cases hcall

end ReflectivePi.Ai.Anthropic
