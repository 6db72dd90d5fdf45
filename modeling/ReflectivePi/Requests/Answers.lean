import ReflectivePi.Requests.Turns

/-!
# Requests — Answers

Every tool call of a request is answered once, when the result of each call
finds the name that the call goes out under.
-/

namespace ReflectivePi.Requests

open List

/-! ## Names -/

section

variable (model : Model) (normalizeToolCallId : Option Normalizer)

/-- The new name a message's call gets, if it gets one. -/
def renames (m : AssistantMessage) (id : String) : Option String :=
  match normalizeToolCallId with
  | some normalize =>
    if !isSameModel model m && normalize id model m ≠ id then
      some (normalize id model m)
    else none
  | none => none

/-- The name a message's call goes out under. -/
def outgoingId (m : AssistantMessage) (id : String) : String :=
  (renames model normalizeToolCallId m id).getD id

/-- The last new name that a call with this id got in a message before; the
latest of them comes first. -/
def lastRename (id : String) : List AssistantMessage → Option String
  | [] => none
  | m :: before =>
    (if id ∈ m.callIds then renames model normalizeToolCallId m id else none).or
      (lastRename id before)

/-- The name of a message's call is found again for its result: a call that
is renamed has a name that is not empty, and one that is not renamed has an
id for which no other name is left from a message before. -/
def FoundAgain (before : List AssistantMessage) (m : AssistantMessage)
    (id : String) : Prop :=
  match renames model normalizeToolCallId m id with
  | some name => name ≠ ""
  | none => lastRename model normalizeToolCallId id before ∈ [none, some ""]

instance instDecidableFoundAgain (before : List AssistantMessage)
    (m : AssistantMessage) (id : String) :
    Decidable (FoundAgain model normalizeToolCallId before m id) := by
  unfold FoundAgain
  split <;> infer_instance

/-- Every result given in a transcript finds the name of its call. -/
def NamesFound : List AssistantMessage → List Message → Prop
  | _, [] => True
  | before, .assistant m :: rest =>
    (m.stopped = false → ∀ r ∈ given rest,
      FoundAgain model normalizeToolCallId before m r.toolCallId) ∧
    NamesFound (m :: before) rest
  | before, .toolResult _ :: rest => NamesFound before rest
  | before, .system _ :: rest => NamesFound before rest
  | before, .user _ :: rest => NamesFound before rest

instance instDecidableNamesFound : (before : List AssistantMessage) → (messages : List Message) →
    Decidable (NamesFound model normalizeToolCallId before messages)
  | _, [] => isTrue trivial
  | before, .assistant m :: rest =>
    @instDecidableAnd _ _ inferInstance (instDecidableNamesFound (m :: before) rest)
  | before, .toolResult _ :: rest => instDecidableNamesFound before rest
  | before, .system _ :: rest => instDecidableNamesFound before rest
  | before, .user _ :: rest => instDecidableNamesFound before rest

/-- An assistant message as it goes out. -/
def outgoing (m : AssistantMessage) : AssistantMessage :=
  { m with content := some (transformBlocks model normalizeToolCallId m
      InsertionMap.empty (m.content.getD [])).2 }

/-- A result under the name of its call. -/
def outgoingResult (m : AssistantMessage) (r : ToolResultMessage) : ToolResultMessage :=
  { r with toolCallId := outgoingId model normalizeToolCallId m r.toolCallId }

/-- A request answers each tool call exactly once: a block has one result
for each call of its message and no other result occurs; there is a block
for each turn, which starts with the results given, in their order and each
under the name of its call; stopped messages are gone, and system and user
messages are all there in order. -/
structure AnswersEachCallOnce (messages request : List Message) : Prop where
  answered : ∀ block ∈ blocks request,
    (block.results.map ToolResultMessage.toolCallId).Perm block.assistant.callIds
  noOther : request.filterMap Message.toolResult? = (blocks request).flatMap Turn.results
  given : List.Forall₂ (fun turn block : Turn =>
      block.assistant = outgoing model normalizeToolCallId turn.assistant ∧
      turn.results.map (outgoingResult model normalizeToolCallId turn.assistant) <+: block.results)
    (turns (messages.map (imageAware model))) (blocks request)
  stopped : ∀ m, .assistant m ∈ request → m.stopped = false
  others : request.filter Message.isSystemOrUser
    = (messages.map (imageAware model)).filter Message.isSystemOrUser

end

/-! ## The first pass -/

section

variable {model : Model} {normalizeToolCallId : Option Normalizer}
  {m : AssistantMessage}

theorem transformToolCall_map (map : InsertionMap String String) (call : ToolCall) (x : String) :
    (transformToolCall model normalizeToolCallId m map call).1.get? x
      = (if x = call.id then renames model normalizeToolCallId m x else none).or
          (map.get? x) := by
  unfold transformToolCall renames
  cases normalizeToolCallId with
  | none => simp
  | some normalize =>
    by_cases hx : x = call.id
    · subst hx
      dsimp only
      split <;> simp_all
    · dsimp only
      split
      · exact (InsertionMap.get?_set ..).trans (if_neg (Ne.symm hx))
      · rfl

theorem transformToolCall_id (map : InsertionMap String String) (call : ToolCall) :
    (transformToolCall model normalizeToolCallId m map call).2.id
      = outgoingId model normalizeToolCallId m call.id := by
  unfold transformToolCall outgoingId renames
  cases normalizeToolCallId with
  | none => dsimp only; split <;> rfl
  | some normalize =>
    dsimp only
    split
    · rfl
    · split <;> rfl

theorem transformToolCall_congr (map map' : InsertionMap String String) (call : ToolCall) :
    (transformToolCall model normalizeToolCallId m map call).2
      = (transformToolCall model normalizeToolCallId m map' call).2 := by
  unfold transformToolCall
  cases normalizeToolCallId with
  | none => rfl
  | some normalize =>
    dsimp only
    split <;> rfl

theorem transformBlocks_congr (map map' : InsertionMap String String)
    (content : List AssistantBlock) :
    (transformBlocks model normalizeToolCallId m map content).2
      = (transformBlocks model normalizeToolCallId m map' content).2 := by
  induction content generalizing map map' with
  | nil => rfl
  | cons block rest ih =>
    cases block with
    | text t => exact congrArg (_ :: ·) (ih map map')
    | thinking t => exact congrArg (_ ++ ·) (ih map map')
    | toolCall call =>
      show AssistantBlock.toolCall (transformToolCall model normalizeToolCallId m map call).2
            :: (transformBlocks model normalizeToolCallId m _ rest).2 = _
      rw [transformToolCall_congr map map' call, ih _
        (transformToolCall model normalizeToolCallId m map' call).1]
      rfl

theorem transformBlocks_map (map : InsertionMap String String)
    (content : List AssistantBlock) (x : String) :
    (transformBlocks model normalizeToolCallId m map content).1.get? x
      = (if x ∈ (content.filterMap AssistantBlock.toolCall?).map ToolCall.id then
          renames model normalizeToolCallId m x else none).or (map.get? x) := by
  induction content generalizing map with
  | nil => rfl
  | cons block rest ih =>
    cases block with
    | text t => exact ih map
    | thinking t => exact ih map
    | toolCall call =>
      show (transformBlocks model normalizeToolCallId m
        (transformToolCall model normalizeToolCallId m map call).1 rest).1.get? x
        = Option.or (if x ∈ call.id :: (rest.filterMap
            AssistantBlock.toolCall?).map ToolCall.id then _ else _) _
      rw [ih, transformToolCall_map, ← Option.or_assoc]
      congr 1
      by_cases hx : x = call.id
      · rw [if_pos hx, if_pos (List.mem_cons.mpr (.inl hx))]
        split
        · exact Option.or_self
        · rfl
      · rw [if_neg hx, Option.or_none]
        exact if_congr (List.mem_cons.trans (or_iff_right hx)).symm rfl rfl

theorem transformThinking_toolCalls (sameModel : Bool) (block : ThinkingContent) :
    (transformThinking sameModel block).filterMap AssistantBlock.toolCall? = [] := by
  unfold transformThinking
  repeat' split
  all_goals rfl

theorem transformBlocks_callIds (map : InsertionMap String String) (content : List AssistantBlock) :
    ((transformBlocks model normalizeToolCallId m map content).2.filterMap
        AssistantBlock.toolCall?).map ToolCall.id
      = ((content.filterMap AssistantBlock.toolCall?).map ToolCall.id).map
          (outgoingId model normalizeToolCallId m) := by
  induction content generalizing map with
  | nil => rfl
  | cons block rest ih =>
    cases block with
    | text t => exact ih map
    | thinking t =>
      show ((transformThinking _ t ++ _).filterMap _).map _ = _
      rw [filterMap_append, transformThinking_toolCalls]
      exact ih map
    | toolCall call =>
      exact congr (congrArg List.cons (transformToolCall_id map call)) (ih _)

variable (model normalizeToolCallId m)

@[simp] theorem callIds_outgoing :
    (outgoing model normalizeToolCallId m).callIds
      = m.callIds.map (outgoingId model normalizeToolCallId m) :=
  transformBlocks_callIds _ _

@[simp] theorem stopped_outgoing :
    (outgoing model normalizeToolCallId m).stopped = m.stopped := rfl

theorem toolCalls_isEmpty_outgoing :
    (outgoing model normalizeToolCallId m).toolCalls.isEmpty = m.toolCalls.isEmpty := by
  have hids := congrArg List.length (callIds_outgoing model normalizeToolCallId m)
  simp only [AssistantMessage.callIds, length_map] at hids
  rw [Bool.eq_iff_iff, isEmpty_iff_length_eq_zero, isEmpty_iff_length_eq_zero, hids]

end

/-! ## What becomes of a turn -/

section

variable {model : Model} {normalizeToolCallId : Option Normalizer}
  {map : InsertionMap String String} {messages : List Message}
  {before : List AssistantMessage}

theorem outgoing_eq (m : AssistantMessage) (map : InsertionMap String String) :
    { m with content := some (transformBlocks model normalizeToolCallId m map
        (m.content.getD [])).2 } = outgoing model normalizeToolCallId m := by
  rw [outgoing, transformBlocks_congr]

theorem renameResult_id (r : ToolResultMessage) :
    (renameResult map r).toolCallId = match map.get? r.toolCallId with
        | some name => if name ≠ "" then name else r.toolCallId
        | none => r.toolCallId := by
  unfold renameResult
  cases map.get? r.toolCallId with
  | none => rfl
  | some name =>
    by_cases hempty : name = ""
    · simp [hempty]
    · by_cases hsame : name = r.toolCallId
      · simp [hsame]
      · simp [hempty, hsame]

theorem given_firstPass (map : InsertionMap String String) (messages : List Message) :
    given (firstPass model normalizeToolCallId map messages)
      = (given messages).map (renameResult map) := by
  induction messages with
  | nil => rfl
  | cons message rest ih =>
    cases message with
    | toolResult r => exact congrArg (renameResult map r :: ·) ih
    | system m => exact ih
    | user m => rfl
    | assistant m => rfl

theorem placed_firstPass {underWay : Bool} (h : Placed underWay messages) :
    Placed underWay (firstPass model normalizeToolCallId map messages) := by
  induction messages generalizing map underWay with
  | nil => trivial
  | cons message rest ih =>
    cases message with
    | toolResult r => exact ⟨h.1, ih h.2⟩
    | system m => exact ih h
    | user m => exact ih h
    | assistant m =>
      show Placed (!m.stopped && !(AssistantMessage.toolCalls
        { m with content := _ }).isEmpty) (firstPass _ _ _ rest)
      rw [outgoing_eq, toolCalls_isEmpty_outgoing]
      exact ih h

theorem ne_of_renames {m : AssistantMessage} {id name : String}
    (h : renames model normalizeToolCallId m id = some name) : name ≠ id := by
  unfold renames at h
  split at h
  · split at h
    · rename_i hnew
      injection h with h
      rw [← h]
      exact of_decide_eq_true (Bool.and_eq_true_iff.mp hnew).2
    · cases h
  · cases h

theorem ne_of_lastRename {id name : String}
    (h : lastRename model normalizeToolCallId id before = some name) : name ≠ id := by
  induction before with
  | nil => cases h
  | cons m before ih =>
    rcases Option.or_eq_some_iff.mp h with h | ⟨-, h⟩
    · split at h
      · exact ne_of_renames h
      · cases h
    · exact ih h

theorem renameResult_eq_iff {m : AssistantMessage} {r : ToolResultMessage}
    (hmap : ∀ id, map.get? id
      = lastRename model normalizeToolCallId id (m :: before)) (hown : r.toolCallId ∈ m.callIds) :
    renameResult map r = outgoingResult model normalizeToolCallId m r
      ↔ FoundAgain model normalizeToolCallId before m r.toolCallId := by
  have hiff : renameResult map r = outgoingResult model normalizeToolCallId m r
      ↔ (renameResult map r).toolCallId = outgoingId model normalizeToolCallId m r.toolCallId := by
    unfold renameResult outgoingResult
    split
    · split
      · simp
      · cases r; simp
    · cases r; simp
  rw [hiff, renameResult_id, hmap, lastRename, if_pos hown, FoundAgain, outgoingId]
  cases hname : renames model normalizeToolCallId m r.toolCallId with
  | some name =>
    have hne := ne_of_renames hname
    by_cases hempty : name = ""
    · simpa [hempty] using fun h : r.toolCallId = "" => hne (hempty.trans h.symm)
    · simp [hempty]
  | none =>
    cases hlast : lastRename model normalizeToolCallId r.toolCallId before with
    | none => simp
    | some name =>
      have hne := ne_of_lastRename hlast
      by_cases hempty : name = ""
      · simp [hempty]
      · simp [hempty, hne]

theorem prefix_append_iff {α : Type} {l₁ l₂ l : List α}
    (h : l₁.length = l₂.length) : l₁ <+: l₂ ++ l ↔ l₁ = l₂ := by
  constructor
  · intro hfront
    exact (prefix_of_prefix_length_le hfront (prefix_append l₂ l) (Nat.le_of_eq h)).eq_of_length h
  · rintro rfl
    exact prefix_append _ _

variable (model normalizeToolCallId) in
/-- A turn as it goes out, each result under the name of its call. -/
def Turn.outgoing (turn : Turn) : Turn where
  assistant := Requests.outgoing model normalizeToolCallId turn.assistant
  results := turn.results.map (outgoingResult model normalizeToolCallId turn.assistant)

theorem forall₂_turns_firstPass (map : InsertionMap String String) (messages : List Message) :
    List.Forall₂ (fun turn out : Turn =>
        out.assistant = outgoing model normalizeToolCallId turn.assistant ∧
        turn.results.length = out.results.length)
      (turns messages)
      (turns (firstPass model normalizeToolCallId map messages)) := by
  induction messages generalizing map with
  | nil => exact .nil
  | cons message rest ih =>
    cases message with
    | assistant m =>
      rw [firstPass, turns, turns, outgoing_eq, stopped_outgoing]
      split
      · exact ih _
      · refine .cons ⟨rfl, ?_⟩ (ih _)
        rw [given_firstPass, length_map]
    | _ => exact ih map

/-- The names are found exactly when every turn goes out as it should. -/
theorem turns_firstPass_iff
    (hmap : ∀ id, map.get? id = lastRename model normalizeToolCallId id before)
    (hfair : ∀ turn ∈ turns messages, turn.Fair) :
    turns (firstPass model normalizeToolCallId map messages)
        = (turns messages).map (Turn.outgoing model normalizeToolCallId)
      ↔ NamesFound model normalizeToolCallId before messages := by
  induction messages generalizing map before with
  | nil => exact iff_of_true rfl trivial
  | cons message rest ih =>
    cases message with
    | assistant m =>
      have hmap' (id : String) :
          (transformBlocks model normalizeToolCallId m map (m.content.getD [])).1.get? id
            = lastRename model normalizeToolCallId id (m :: before) := by
        rw [transformBlocks_map, hmap]
        rfl
      rw [firstPass, turns, turns, NamesFound, outgoing_eq, stopped_outgoing]
      rw [turns] at hfair
      cases hstopped : m.stopped with
      | true =>
        rw [hstopped] at hfair
        exact (ih hmap' hfair).trans (by simp)
      | false =>
        rw [hstopped] at hfair
        have hturn := hfair _ mem_cons_self
        have hrest := ih hmap' fun turn h => hfair turn (mem_cons_of_mem _ h)
        rw [if_neg Bool.false_ne_true, if_neg Bool.false_ne_true, map_cons, cons_eq_cons, hrest]
        refine and_congr_left' (Iff.trans ?_ ⟨fun h _ => h, fun h => h rfl⟩)
        rw [Turn.outgoing, Turn.mk.injEq, given_firstPass, map_inj_left]
        refine (and_iff_right rfl).trans (forall₂_congr fun r hr => ?_)
        exact renameResult_eq_iff hmap' (hturn.own r hr)
    | _ => exact ih hmap hfair

/-- Blocks start as the turns go out exactly when the first pass names every
result as it should. -/
theorem forall₂_complete_iff {ins outs : List Turn}
    (h : List.Forall₂ (fun turn out : Turn =>
      out.assistant = outgoing model normalizeToolCallId turn.assistant ∧
      turn.results.length = out.results.length) ins outs) :
    List.Forall₂ (fun turn block : Turn =>
        block.assistant = outgoing model normalizeToolCallId turn.assistant ∧
        turn.results.map (outgoingResult model normalizeToolCallId turn.assistant)
          <+: block.results) ins (outs.map Turn.complete)
      ↔ outs = ins.map (Turn.outgoing model normalizeToolCallId) := by
  induction h with
  | nil => exact iff_of_true .nil rfl
  | @cons turn out ins outs hhead _ ih =>
    obtain ⟨hassistant, hlength⟩ := hhead
    obtain ⟨assistant, results⟩ := out
    rw [map_cons, map_cons, forall₂_cons, ih, cons_eq_cons]
    refine and_congr_left' ?_
    dsimp only [Turn.complete] at hassistant hlength ⊢
    rw [prefix_append_iff (by rw [length_map, hlength]), Turn.outgoing, Turn.mk.injEq]
    exact and_congr_right fun _ => eq_comm

theorem outgoingId_injective
    (hinj : ∀ normalize, normalizeToolCallId = some normalize →
      ∀ m, Function.Injective fun id => normalize id model m)
    (m : AssistantMessage) :
    Function.Injective (outgoingId model normalizeToolCallId m) := by
  unfold outgoingId renames
  cases hnormalize : normalizeToolCallId with
  | none => exact Function.injective_id
  | some normalize =>
    cases hsame : isSameModel model m with
    | true => exact Function.injective_id
    | false =>
      have hid : (fun id => (if !false && normalize id model m ≠ id then
          some (normalize id model m) else none).getD id)
          = fun id => normalize id model m := by
        funext id
        by_cases heq : normalize id model m = id
        · simp [heq]
        · simp [heq]
      exact hid ▸ hinj normalize hnormalize m

theorem missing_ids (pending : List ToolCall) (seen : List String) :
    (missing pending seen).map ToolResultMessage.toolCallId
      = (pending.map ToolCall.id).filter fun id => decide (id ∉ seen) := by
  rw [missing, map_map, filter_map]
  rfl

theorem Turn.Fair.answered {turn : Turn} (h : turn.Fair)
    (hinj : ∀ normalize, normalizeToolCallId = some normalize →
      ∀ m, Function.Injective fun id => normalize id model m) :
    ((turn.outgoing model normalizeToolCallId).complete.results.map
        ToolResultMessage.toolCallId).Perm
      (turn.outgoing model normalizeToolCallId).complete.assistant.callIds := by
  have hinjective := outgoingId_injective hinj turn.assistant
  have hids : (turn.outgoing model normalizeToolCallId).results.map ToolResultMessage.toolCallId
      = (turn.results.map ToolResultMessage.toolCallId).map
          (outgoingId model normalizeToolCallId turn.assistant) := by
    rw [Turn.outgoing, map_map, map_map]
    rfl
  have hcalls : (turn.outgoing model normalizeToolCallId).assistant.callIds
      = turn.assistant.callIds.map (outgoingId model normalizeToolCallId turn.assistant) :=
    callIds_outgoing _ _ _
  rw [Turn.complete, map_append, missing_ids]
  show List.Perm (_ ++ List.filter _ (turn.outgoing model normalizeToolCallId).assistant.callIds) _
  rw [hids, hcalls]
  refine (perm_ext_iff_of_nodup ?_ (h.calls.map hinjective)).mpr fun id => ?_
  · refine ((h.once.map hinjective).append ((h.calls.map hinjective).filter _)) ?_
    intro id hid hfilter
    exact of_decide_eq_true (List.mem_filter.mp hfilter).2 hid
  · rw [mem_append, mem_filter]
    constructor
    · rintro (hid | hid)
      · obtain ⟨given, hgiven, rfl⟩ := List.mem_map.mp hid
        obtain ⟨r, hr, rfl⟩ := List.mem_map.mp hgiven
        exact mem_map_of_mem (h.own r hr)
      · exact hid.1
    · intro hid
      by_cases hgiven : id ∈ (turn.results.map ToolResultMessage.toolCallId).map
          (outgoingId model normalizeToolCallId turn.assistant)
      · exact .inl hgiven
      · exact .inr ⟨hid, decide_eq_true hgiven⟩

end

/-! ## The request -/

section

variable {model : Model} {normalizeToolCallId : Option Normalizer}
  {messages : List Message}

/-! Neither the normalization of contents nor the downgrade of images changes
what a message is. -/

theorem imageAware_system (model : Model) (m : SystemMessage) :
    ∃ m', imageAware model (.system m) = .system m' := by
  unfold imageAware downgradeUnsupportedImages
  by_cases himage : "image" ∈ model.input
  · rw [if_pos himage]
    exact ⟨_, rfl⟩
  · rw [if_neg himage]
    exact ⟨_, rfl⟩

theorem imageAware_user (model : Model) (m : UserMessage) :
    ∃ m', imageAware model (.user m) = .user m' := by
  unfold imageAware downgradeUnsupportedImages
  by_cases himage : "image" ∈ model.input
  · rw [if_pos himage]
    exact ⟨_, rfl⟩
  · rw [if_neg himage]
    exact ⟨_, rfl⟩

theorem imageAware_toolResult (model : Model) (r : ToolResultMessage) :
    ∃ r', imageAware model (.toolResult r) = .toolResult r' ∧ r'.toolCallId = r.toolCallId := by
  unfold imageAware downgradeUnsupportedImages
  by_cases himage : "image" ∈ model.input
  · rw [if_pos himage]
    exact ⟨_, rfl, rfl⟩
  · rw [if_neg himage]
    exact ⟨_, rfl, rfl⟩

theorem imageAware_assistant (model : Model) (m : AssistantMessage) :
    imageAware model (.assistant m) = .assistant { m with content := m.content.or (some []) } :=
  ite_self _

theorem callIds_imageAware (m : AssistantMessage) :
    AssistantMessage.callIds { m with content := m.content.or (some []) } = m.callIds := by
  unfold AssistantMessage.callIds AssistantMessage.toolCalls
  cases m.content <;> rfl

theorem wellPosed_imageAware {waiting : List String} (h : WellPosed waiting messages) :
    WellPosed waiting (messages.map (imageAware model)) := by
  induction messages generalizing waiting with
  | nil => trivial
  | cons message rest ih =>
    rw [map_cons]
    cases message with
    | system m =>
      obtain ⟨m', heq⟩ := imageAware_system model m
      rw [heq]
      exact ih h
    | user m =>
      obtain ⟨m', heq⟩ := imageAware_user model m
      rw [heq]
      exact ih h
    | toolResult r =>
      obtain ⟨r', heq, hid⟩ := imageAware_toolResult model r
      rw [heq, WellPosed, hid]
      exact ⟨h.1, ih h.2⟩
    | assistant m =>
      rw [imageAware_assistant, WellPosed, callIds_imageAware]
      exact ⟨h.1, ih h.2⟩

theorem filter_firstPass (map : InsertionMap String String) (messages : List Message) :
    (firstPass model normalizeToolCallId map messages).filter
      Message.isSystemOrUser = messages.filter Message.isSystemOrUser := by
  induction messages generalizing map with
  | nil => rfl
  | cons message rest ih =>
    cases message with
    | system m => exact congrArg (Message.system m :: ·) (ih map)
    | user m => exact congrArg (Message.user m :: ·) (ih map)
    | toolResult r => exact ih map
    | assistant m => exact ih _

/-- A request answers each tool call exactly once if and only if every
result given finds the name of its call. -/
theorem transformMessages_answers_iff (hposed : WellPosed [] messages)
    (hinj : ∀ normalize, normalizeToolCallId = some normalize →
      ∀ m, Function.Injective fun id => normalize id model m) :
    AnswersEachCallOnce model normalizeToolCallId messages
        (transformMessages messages model normalizeToolCallId)
      ↔ NamesFound model normalizeToolCallId []
          (messages.map (imageAware model)) := by
  have hposed' : WellPosed [] (messages.map (imageAware model)) := wellPosed_imageAware hposed
  have hfair := turns_fair hposed'
  have hplaced : Placed false (firstPass model normalizeToolCallId InsertionMap.empty
      (messages.map (imageAware model))) :=
    placed_firstPass (placed_of_wellPosed (fun hne => absurd rfl hne) hposed')
  have hblocks := @blocks_emitted [] [] [] _ hplaced
  have hturns : turns (firstPass model normalizeToolCallId InsertionMap.empty
        (messages.map (imageAware model)))
      = (turns (messages.map (imageAware model))).map (Turn.outgoing model normalizeToolCallId)
      ↔ NamesFound model normalizeToolCallId [] (messages.map (imageAware model)) :=
    turns_firstPass_iff (fun _ => rfl) hfair
  have hiff := forall₂_complete_iff (@forall₂_turns_firstPass model normalizeToolCallId
    InsertionMap.empty (messages.map (imageAware model)))
  rw [transformMessages, secondPass_eq]
  constructor
  · intro h
    have hgiven := h.given
    rw [hblocks] at hgiven
    exact hturns.mp (hiff.mp hgiven)
  · intro hfound
    have hout := hturns.mpr hfound
    refine ⟨?_, ?_, ?_, fun m hmem => not_stopped_emitted hmem, ?_⟩
    · rw [hblocks, hout]
      intro block hblock
      obtain ⟨out, hout, rfl⟩ := List.mem_map.mp hblock
      obtain ⟨turn, hturn, rfl⟩ := List.mem_map.mp hout
      exact (hfair turn hturn).answered hinj
    · have h := @gathered_emitted [] [] [] _ hplaced fun _ => rfl
      rwa [Gathered, leading_emitted_nil hplaced, nil_append] at h
    · rw [hblocks]
      exact hiff.mpr hout
    · rw [filter_emitted [] [] _ fun _ => rfl, filter_firstPass]
      rfl

end

/-! ## A transcript of two models -/

def sampleModel : Model where
  id := "claude"
  api := "anthropic-messages"
  provider := "anthropic"
  input := ["text", "image"]

def sampleNormalize : Normalizer := fun id _ _ => "call_" ++ id

def sampleCall (id provider model : String) : Message :=
  .assistant
    { content := some [.toolCall { id, name := "read", arguments := "\x7b\x7d" }]
      api := "anthropic-messages"
      provider
      model
      stopReason := .toolUse }

def sampleResult (id text : String) : Message :=
  .toolResult
    { toolCallId := id
      toolName := "read"
      content := some [Block.text { text }]
      isError := false }

/-- A call from another model and a call of the target model, answered each. -/
def sampleTranscript (first second : String) : List Message :=
  [sampleCall first "github-copilot" "gpt", sampleResult first "one",
    sampleCall second "anthropic" "claude", sampleResult second "two"]

theorem sampleNormalize_injective (normalize : Normalizer)
    (h : some sampleNormalize = some normalize) (m : AssistantMessage) :
    Function.Injective fun id => normalize id sampleModel m := by
  cases h
  intro id id' heq
  have hlist := congrArg String.toList heq
  simp only [sampleNormalize, String.toList_append] at hlist
  exact String.toList_injective (append_cancel_left hlist)

theorem transformMessages_answers_iff_sample :
    AnswersEachCallOnce sampleModel (some sampleNormalize) (sampleTranscript "1" "2")
      (transformMessages (sampleTranscript "1" "2") sampleModel
        (some sampleNormalize)) :=
  (transformMessages_answers_iff (by decide) sampleNormalize_injective).mpr
    (by decide)

/-- When both use one id, the second result goes by the name of the first call,
and the second call gets another one. -/
theorem transformMessages_answers_twice :
    WellPosed [] (sampleTranscript "1" "1") ∧
    (∀ normalize, some sampleNormalize = some normalize →
      ∀ m, Function.Injective fun id => normalize id sampleModel m) ∧
    ¬ AnswersEachCallOnce sampleModel (some sampleNormalize)
      (sampleTranscript "1" "1")
      (transformMessages (sampleTranscript "1" "1") sampleModel
        (some sampleNormalize)) := by
  refine ⟨by decide, sampleNormalize_injective, fun h => ?_⟩
  have hanswered := h.answered
  revert hanswered
  decide

end ReflectivePi.Requests
