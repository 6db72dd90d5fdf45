import ReflectivePi.Requests.ToolRequests
import ReflectivePi.Requests.WireTurns

/-!
# Requests — Anthropic

The messages of an Anthropic request. Consecutive results become one user
message; later system messages wait for the next assistant message.
-/

namespace ReflectivePi.Requests.Anthropic

open List

/-! ## Message parameters -/

inductive ToolResultContent where
  | text (text : String)
  | blocks (blocks : List Block)

inductive BlockKind where
  | text (text : String)
  | image (image : ImageContent)
  | thinking (thinking signature : String)
  | redactedThinking (data : Option String)
  | toolUse (id name input : String)
  | toolResult (toolUseId : String) (content : ToolResultContent) (isError : Bool)
  | toolRemoval (name : String)
  | toolAddition (name : String)

structure ContentBlock where
  kind : BlockKind
  cacheControl : Bool := false

inductive MessageContent where
  | text (text : String)
  | blocks (blocks : List ContentBlock)

structure MessageParam where
  role : Role
  content : MessageContent
  /-- `output_config.effort`. -/
  effort : Option String := none

structure Options where
  isOAuthToken : Bool := false
  cacheControl : Bool := false
  compat : AnthropicCompat := ⟨false, false⟩
  allowEmptySignature : Bool := false
  supportsMidConvoEffort : Bool := false
  effort : String := "high"
  /-- The field of a message. -/
  providerThinkingLevel : AssistantMessage → Option String := fun _ => none

/-! ## Messages -/

def convertContentBlocks (content : List Block) : ToolResultContent :=
  let hasImages := content.any fun block => match block with
    | .image _ => true
    | .text _ => false
  if !hasImages then
    .text ("\n".intercalate (content.filterMap fun block => match block with
      | .text t => some t.text
      | .image _ => none))
  else
    let blocks := content.map fun block => match block with
      | .text t => Block.text { text := t.text }
      | .image image => .image image
    let hasText := blocks.any fun block => match block with
      | .text _ => true
      | .image _ => false
    .blocks (if hasText then blocks
      else Block.text { text := "(see attached image)" } :: blocks)

def convertToolResult (r : ToolResultMessage) : BlockKind :=
  .toolResult r.toolCallId (convertContentBlocks (r.content.getD [])) r.isError

def systemBlockKind : SystemBlock → BlockKind
  | .text text => .text text
  | .toolRemoval name => .toolRemoval name
  | .toolAddition name => .toolAddition name

def systemParams (options : Options) (nativeToolChanges : Bool) (m : SystemMessage) :
    List MessageParam :=
  let blocks := systemBlocks options.isOAuthToken nativeToolChanges m
  if blocks.isEmpty then []
  else [{ role := .system, content := .blocks (blocks.map fun block => ⟨systemBlockKind block, false⟩) }]

/-- A text that is blank is left out. -/
def userBlock : Block → Option BlockKind
  | .text t => if isBlank t.text then none else some (.text t.text)
  | .image image => some (.image image)

def userParams (m : UserMessage) : List MessageParam :=
  match m.content.getD (.blocks []) with
  | .text text => if isBlank text then [] else [{ role := .user, content := .text text }]
  | .blocks blocks =>
    let filteredBlocks := blocks.filterMap userBlock
    if filteredBlocks.isEmpty then []
    else [{ role := .user, content := .blocks (filteredBlocks.map fun kind => ⟨kind, false⟩) }]

def toolUse (options : Options) (call : ToolCall) : BlockKind :=
  .toolUse call.id (wireName options.isOAuthToken call.name) call.arguments

def assistantBlock (options : Options) : AssistantBlock → List BlockKind
  | .text block => if isBlank block.text then [] else [.text block.text]
  | .thinking block =>
    if block.redacted then [.redactedThinking block.thinkingSignature]
    else
      let hasThinkingSignature := block.thinkingSignature.any fun text => !isBlank text
      if isBlank block.thinking && !hasThinkingSignature then []
      else if !hasThinkingSignature then
        if options.allowEmptySignature then [.thinking block.thinking ""]
        else [.text block.thinking]
      else [.thinking block.thinking (block.thinkingSignature.getD "")]
  | .toolCall call => [toolUse options call]

def isAnthropicEffort (value : String) : Bool :=
  ["low", "medium", "high", "xhigh", "max"].contains value

/-- A message parameter, and for an assistant message the effort it was written with. -/
structure ConvertedMessage where
  param : MessageParam
  assistantLevel : Option String := none

def assistantParams (options : Options) (model : Model) (m : AssistantMessage) :
    List ConvertedMessage :=
  let blocks := (m.content.getD []).flatMap (assistantBlock options)
  if blocks.isEmpty then []
  else
    let level := if options.supportsMidConvoEffort && m.api = "anthropic-messages"
          && m.provider = model.provider then
        (options.providerThinkingLevel m).filter isAnthropicEffort
      else none
    [⟨{ role := .assistant, content := .blocks (blocks.map fun kind => ⟨kind, false⟩) }, level⟩]

def resultParam (results : List ToolResultMessage) : MessageParam where
  role := .user
  content := .blocks (results.map fun r => ⟨convertToolResult r, false⟩)

/-! ## The loop -/

/-- The parameters so far, and the system messages held back. -/
structure Conversion where
  params : List ConvertedMessage := []
  pendingSystemMessages : List MessageParam := []

def Conversion.flushPendingSystemMessages (conversion : Conversion) : Conversion where
  params := conversion.params ++ conversion.pendingSystemMessages.map fun param => ⟨param, none⟩
  pendingSystemMessages := []

def Conversion.push (conversion : Conversion) (params : List ConvertedMessage) : Conversion :=
  { conversion with params := conversion.params ++ params }

def Conversion.step (options : Options) (model : Model) (nativeToolChanges : Bool)
    (conversion : Conversion) : Chunk → Conversion
  | .message (.system m) =>
    { conversion with
      pendingSystemMessages :=
        conversion.pendingSystemMessages ++ systemParams options nativeToolChanges m }
  | .message (.user m) => conversion.push ((userParams m).map fun param => ⟨param, none⟩)
  | .message (.assistant m) =>
    conversion.flushPendingSystemMessages.push (assistantParams options model m)
  | .message (.toolResult r) => conversion.push [⟨resultParam [r], none⟩]
  | .results results => conversion.push [⟨resultParam results, none⟩]

def takesCacheControl : BlockKind → Bool
  | .text _ | .image _ | .toolResult .. | .toolAddition _ | .toolRemoval _ => true
  | _ => false

def markContent : MessageContent → MessageContent
  | .text text => .blocks [⟨.text text, true⟩]
  | .blocks blocks =>
    match blocks.getLast? with
    | some lastBlock =>
      if takesCacheControl lastBlock.kind then
        .blocks (blocks.dropLast ++ [{ lastBlock with cacheControl := true }])
      else .blocks blocks
    | none => .blocks blocks

/-- Add the cache control to the last user or system message. -/
def addCacheControl (params : List ConvertedMessage) : List ConvertedMessage :=
  match params.getLast? with
  | some lastMessage =>
    if lastMessage.param.role = .assistant then params
    else
      params.dropLast ++ [{ lastMessage with
        param := { lastMessage.param with content := markContent lastMessage.param.content } }]
  | none => params

def convertMessages (options : Options) (model : Model) (nativeToolChanges : Bool)
    (transformedMessages : List Message) : List ConvertedMessage :=
  let params := ((chunks transformedMessages).foldl
    (Conversion.step options model nativeToolChanges) {}).flushPendingSystemMessages.params
  if options.cacheControl then addCacheControl params else params

def thinkingLevelMessage (effort : String) : MessageParam where
  role := .system
  content := .blocks []
  effort := some effort

def insertThinkingLevelMessages (converted : List ConvertedMessage) (activeEffort : String) :
    List MessageParam :=
  converted.flatMap (fun message =>
    message.assistantLevel.toList.map thinkingLevelMessage ++ [message.param])
      ++ [thinkingLevelMessage activeEffort]

def normalizeToolCallId (id : String) : String :=
  String.ofList ((replaceNonIdChars id).take 64)

/-- The transcript as the request is built from it. -/
def resolved (options : Options) (messages : List Message) : List Message :=
  resolveTranscript messages options.compat.supportsMidConvoSystemMessages

def conversationMessages (options : Options) (model : Model) (messages : List Message) :
    List Message :=
  let transformed := transformMessages (resolved options messages) model
    (some fun id _ _ => normalizeToolCallId id)
  if (getInitialSystemMessage (resolved options messages)).isSome then transformed.drop 1
  else transformed

def buildMessages (options : Options) (model : Model) (messages : List Message) :
    List MessageParam :=
  let converted := convertMessages options model
    (nativeToolChanges options.compat (resolved options messages))
    (conversationMessages options model messages)
  if options.supportsMidConvoEffort then insertThinkingLevelMessages converted options.effort
  else converted.map ConvertedMessage.param

/-! ## Turns -/

def MessageContent.kinds : MessageContent → List BlockKind
  | .text t => [.text t]
  | .blocks bs => bs.map ContentBlock.kind

def BlockKind.isToolUse : BlockKind → Bool
  | .toolUse .. => true
  | _ => false

def BlockKind.isToolResult : BlockKind → Bool
  | .toolResult .. => true
  | _ => false

def BlockKind.images : BlockKind → List ImageContent
  | .image i => [i]
  | .toolResult _ (.blocks blocks) _ => blocks.filterMap fun block =>
    match block with
    | .image i => some i
    | .text _ => none
  | _ => []

def MessageParam.turn (param : MessageParam) : WireTurn BlockKind ImageContent where
  role := param.role
  calls := param.content.kinds.filter BlockKind.isToolUse
  results := param.content.kinds.filter BlockKind.isToolResult
  images := param.content.kinds.flatMap BlockKind.images

def converted (options : Options) : Converted BlockKind where
  call := fun _ call => toolUse options call
  result := convertToolResult

variable {options : Options} {model : Model} {native : Bool}

theorem kinds_map (kinds : List BlockKind) :
    (MessageContent.blocks (kinds.map fun kind => ⟨kind, false⟩)).kinds = kinds := by
  rw [MessageContent.kinds, map_map]
  exact map_id kinds

theorem turn_isSilent {role : Role} {effort : Option String} {content : MessageContent}
    (h : ∀ kind ∈ content.kinds, kind.isToolUse = false ∧ kind.isToolResult = false) :
    (MessageParam.turn ⟨role, content, effort⟩).isSilent :=
  ⟨List.filter_eq_nil_iff.mpr fun kind hkind => by simp [(h kind hkind).1],
    List.filter_eq_nil_iff.mpr fun kind hkind => by simp [(h kind hkind).2]⟩

theorem systemParams_isSilent (m : SystemMessage) :
    ∀ param ∈ systemParams options native m, param.turn.isSilent := by
  intro param hparam
  simp only [systemParams] at hparam
  split at hparam
  · cases hparam
  · rw [mem_singleton] at hparam
    subst hparam
    refine turn_isSilent fun kind hkind => ?_
    rw [MessageContent.kinds, map_map] at hkind
    obtain ⟨block, -, rfl⟩ := List.mem_map.mp hkind
    cases block <;> exact ⟨rfl, rfl⟩

theorem userParams_isSilent (m : UserMessage) : ∀ param ∈ userParams m, param.turn.isSilent := by
  intro param hparam
  simp only [userParams] at hparam
  split at hparam
  · split at hparam
    · cases hparam
    · rw [mem_singleton] at hparam
      subst hparam
      exact ⟨rfl, rfl⟩
  · split at hparam
    · cases hparam
    · rw [mem_singleton] at hparam
      subst hparam
      refine turn_isSilent fun kind hkind => ?_
      rw [kinds_map] at hkind
      obtain ⟨block, -, hblock⟩ := List.mem_filterMap.mp hkind
      cases block with
      | text t =>
        simp only [userBlock] at hblock
        split at hblock
        · cases hblock
        · cases hblock
          exact ⟨rfl, rfl⟩
      | image image =>
        cases hblock
        exact ⟨rfl, rfl⟩

variable (options) in
theorem filter_assistantBlocks (m : AssistantMessage) :
    ((m.content.getD []).flatMap (assistantBlock options)).filter BlockKind.isToolUse
        = m.toolCalls.map (toolUse options) ∧
      ((m.content.getD []).flatMap (assistantBlock options)).filter BlockKind.isToolResult
        = [] := by
  refine filter_blocks (fun block => ?_) m
  cases block with
  | text block =>
    simp only [assistantBlock]
    split <;>
      simp [BlockKind.isToolUse, BlockKind.isToolResult, AssistantBlock.toolCall?]
  | thinking block =>
    simp only [assistantBlock]
    repeat' split
    all_goals simp [BlockKind.isToolUse, BlockKind.isToolResult, AssistantBlock.toolCall?]
  | toolCall call => exact ⟨rfl, rfl⟩

theorem assistantParams_isSilent {m : AssistantMessage} (h : m.toolCalls = []) :
    ∀ message ∈ assistantParams options model m,
      message.param.turn.isSilent ∧ message.param.role = .assistant := by
  intro message hmessage
  simp only [assistantParams] at hmessage
  split at hmessage
  · cases hmessage
  · rw [mem_singleton] at hmessage
    subst hmessage
    obtain ⟨hcall, hresult⟩ := filter_assistantBlocks options m
    rw [h, map_nil] at hcall
    refine ⟨⟨?_, ?_⟩, rfl⟩
    · simpa only [MessageParam.turn, kinds_map] using hcall
    · simpa only [MessageParam.turn, kinds_map] using hresult

variable (options model) in
theorem assistantParams_eq {m : AssistantMessage} (h : m.toolCalls ≠ []) :
    ∃ message, assistantParams options model m = [message] ∧ message.param.turn.role = .assistant ∧
      message.param.turn.calls = m.toolCalls.map ((converted options).call m) ∧
      message.param.turn.results = [] := by
  obtain ⟨hcall, hresult⟩ := filter_assistantBlocks options m
  simp only [assistantParams]
  rw [if_neg]
  · refine ⟨_, rfl, rfl, ?_, ?_⟩
    · simp only [MessageParam.turn, kinds_map]
      exact hcall
    · simp only [MessageParam.turn, kinds_map]
      exact hresult
  · rw [List.isEmpty_iff]
    intro hnil
    rw [hnil] at hcall
    exact h (List.map_eq_nil_iff.mp hcall.symm)

theorem resultParam_turn (results : List ToolResultMessage) :
    (resultParam results).turn.calls = [] ∧
      (resultParam results).turn.results = results.map (converted options).result := by
  have hkinds : (resultParam results).content.kinds = results.map convertToolResult := by
    simp [resultParam, MessageContent.kinds]
  constructor
  · rw [MessageParam.turn, hkinds]
    refine List.filter_eq_nil_iff.mpr fun kind hkind => ?_
    obtain ⟨r, -, rfl⟩ := List.mem_map.mp hkind
    exact Bool.false_ne_true
  · rw [MessageParam.turn, hkinds]
    refine List.filter_eq_self.mpr fun kind hkind => ?_
    obtain ⟨r, -, rfl⟩ := List.mem_map.mp hkind
    rfl

/-- The loop as it goes on from a later state. -/
def Rest (options : Options) (model : Model) (native : Bool) (conversion : Conversion)
    (messages : List Message) (out : List ConvertedMessage) : Prop :=
  ((chunks messages).foldl (Conversion.step options model native)
      conversion).flushPendingSystemMessages.params = conversion.params ++ out ∧
    Paired (converted options) messages (out.map fun message => message.param.turn) ∧
    ∀ message ∈ out, message.param.role = .user → message.assistantLevel = none

/-- A parameter that is neither calls nor results. -/
def ConvertedMessage.isSilent (message : ConvertedMessage) : Prop :=
  message.param.turn.isSilent ∧ (message.param.role = .user → message.assistantLevel = none)

theorem held_isSilent {params : List MessageParam} (h : ∀ param ∈ params, param.turn.isSilent) :
    ∀ message ∈ params.map fun param => (⟨param, none⟩ : ConvertedMessage), message.isSilent := by
  intro message hmessage
  obtain ⟨param, hparam, rfl⟩ := List.mem_map.mp hmessage
  exact ⟨h param hparam, fun _ => rfl⟩

theorem turns_isSilent {messages : List ConvertedMessage}
    (h : ∀ message ∈ messages, message.isSilent) :
    ∀ turn ∈ messages.map fun message => message.param.turn, turn.isSilent := by
  intro turn hturn
  obtain ⟨message, hmessage, rfl⟩ := List.mem_map.mp hturn
  exact (h message hmessage).1

/-- A silent message adds parameters that are silent. -/
theorem Rest.message {conversion : Conversion} {message : Message} {rest : List Message}
    {first out : List ConvertedMessage} (hsilent : message.isSilent)
    (hfirst : ∀ message ∈ first, message.isSilent)
    (hparams : (conversion.step options model native (.message message)).params
      = conversion.params ++ first)
    (h : Rest options model native (conversion.step options model native (.message message))
      rest out) : Rest options model native conversion (message :: rest) (first ++ out) := by
  obtain ⟨hrest, hpaired, hlevel⟩ := h
  refine ⟨?_, ?_, ?_⟩
  · rw [chunks_message (.inl hsilent), foldl_cons, hrest, hparams, append_assoc]
  · rw [map_append]
    exact .message hsilent (.silent (turns_isSilent hfirst) hpaired)
  · intro message hmessage
    rcases List.mem_append.mp hmessage with hmem | hmem
    · exact (hfirst message hmem).2
    · exact hlevel message hmem

variable (options model native) in
/-- **The loop**: from the parameters so far it writes turns that pair. -/
theorem foldl_step {messages : List Message} (h : AnsweredDirectly messages)
    (conversion : Conversion)
    (hpending : ∀ param ∈ conversion.pendingSystemMessages, param.turn.isSilent) :
    ∃ out, Rest options model native conversion messages out := by
  induction h generalizing conversion with
  | nil =>
    have hheld := held_isSilent hpending
    refine ⟨_, rfl, ?_, fun message hmessage => (hheld message hmessage).2⟩
    have hpaired := (Paired.nil : Paired (converted options) [] []).silent (turns_isSilent hheld)
    rwa [append_nil] at hpaired
  | @other message rest hsilent _ ih =>
    cases message with
    | toolResult r => cases hsilent
    | system m =>
      obtain ⟨out, hout⟩ := ih (conversion.step options model native (.message (.system m)))
        (List.forall_mem_append.mpr ⟨hpending, systemParams_isSilent m⟩)
      exact ⟨[] ++ out, hout.message hsilent (fun _ h => by cases h) (append_nil _).symm⟩
    | user m =>
      obtain ⟨out, hout⟩ := ih (conversion.step options model native (.message (.user m))) hpending
      exact ⟨_, hout.message hsilent (held_isSilent (userParams_isSilent m)) rfl⟩
    | assistant m =>
      obtain ⟨out, hout⟩ := ih
        (conversion.step options model native (.message (.assistant m))) (by simp [Conversion.step,
          Conversion.push, Conversion.flushPendingSystemMessages])
      refine ⟨_, hout.message hsilent (List.forall_mem_append.mpr
        ⟨held_isSilent hpending, fun message hmessage => ?_⟩) (append_assoc _ _ _)⟩
      obtain ⟨hturn, hrole⟩ := assistantParams_isSilent (List.isEmpty_iff.mp hsilent) message
        hmessage
      exact ⟨hturn, fun huser => by rw [hrole] at huser; cases huser⟩
  | @exchange m results rest hcalls hanswers hrest ih =>
    obtain ⟨message, hmessage, hturn⟩ := assistantParams_eq options model hcalls
    have hheld := held_isSilent hpending
    obtain ⟨out, hparams, hpaired, hlevel⟩ := ih
      ((conversion.step options model native (.message (.assistant m))).step options model native
        (.results results))
      (by simp [Conversion.step, Conversion.push, Conversion.flushPendingSystemMessages])
    refine ⟨(conversion.pendingSystemMessages.map fun param => ⟨param, none⟩)
      ++ message :: ⟨resultParam results, none⟩ :: out, ?_, ?_, ?_⟩
    · rw [chunks_message (.inr ⟨m, rfl⟩), chunks_results (results_ne_nil hcalls hanswers)
        hrest.starts, foldl_cons, foldl_cons, hparams]
      simp [Conversion.step, Conversion.push, Conversion.flushPendingSystemMessages, hmessage]
    · rw [map_append]
      exact .silent (turns_isSilent hheld) (.exchange hcalls hanswers hturn
        ⟨rfl, resultParam_turn results⟩ hpaired)
    · rw [forall_mem_append, forall_mem_cons, forall_mem_cons]
      refine ⟨fun message hmem => (hheld message hmem).2, fun huser => ?_, fun _ => rfl, hlevel⟩
      rw [show message.param.role = .assistant from hturn.1] at huser
      cases huser

/-! ## Cache control and thinking levels -/

theorem kinds_markContent (content : MessageContent) :
    (markContent content).kinds = content.kinds := by
  cases content with
  | text t => rfl
  | blocks bs =>
    rcases eq_nil_or_concat bs with rfl | ⟨bs, last, rfl⟩
    · rfl
    · simp only [markContent, concat_eq_append, getLast?_concat, dropLast_concat]
      split <;> simp [MessageContent.kinds]

theorem addCacheControl_turns (params : List ConvertedMessage) :
    (addCacheControl params).map (fun message => (message.param.turn, message.assistantLevel))
      = params.map fun message => (message.param.turn, message.assistantLevel) := by
  rcases eq_nil_or_concat params with rfl | ⟨params, last, rfl⟩
  · rfl
  · simp only [addCacheControl, concat_eq_append, getLast?_concat, dropLast_concat]
    split
    · rfl
    · simp [MessageParam.turn, kinds_markContent]

/-- The turns of the converted messages, each with the levels put before it. -/
def leveled (messages : List ConvertedMessage) :
    List (List (WireTurn BlockKind ImageContent) × WireTurn BlockKind ImageContent) :=
  messages.map fun message =>
    (message.assistantLevel.toList.map fun level => (thinkingLevelMessage level).turn,
      message.param.turn)

theorem insertThinkingLevelMessages_turns (messages : List ConvertedMessage) (effort : String) :
    (insertThinkingLevelMessages messages effort).map MessageParam.turn
      = ((leveled messages).flatMap fun pair => pair.1 ++ [pair.2])
        ++ [(thinkingLevelMessage effort).turn] := by
  simp [insertThinkingLevelMessages, leveled, map_flatMap, flatMap_map, Function.comp_def]

variable (options model native) in
theorem convertMessages_spec {messages : List Message} (h : AnsweredDirectly messages) :
    Paired (converted options) messages
        ((convertMessages options model native messages).map fun message => message.param.turn) ∧
      ∀ message ∈ convertMessages options model native messages,
        message.param.role = .user → message.assistantLevel = none := by
  obtain ⟨out, hparams, hpaired, hlevel⟩ := foldl_step options model native
    h {} (fun _ h => by cases h)
  rw [nil_append] at hparams
  rw [convertMessages, hparams]
  split
  · have hsame := addCacheControl_turns out
    have hturns := congrArg (List.map Prod.fst) hsame
    rw [map_map, map_map] at hturns
    refine ⟨?_, fun message hmessage huser => ?_⟩
    · rw [show (addCacheControl out).map (fun message => message.param.turn)
          = out.map fun message => message.param.turn from hturns]
      exact hpaired
    · have hmem := mem_map_of_mem
        (f := fun message : ConvertedMessage => (message.param.turn, message.assistantLevel))
        hmessage
      rw [hsame] at hmem
      obtain ⟨message', hmem', heq⟩ := List.mem_map.mp hmem
      injection heq with hturn hlevel'
      rw [← hlevel']
      exact hlevel message' hmem' ((congrArg WireTurn.role hturn).trans huser)
  · exact ⟨hpaired, hlevel⟩

/-- **The request**: every turn with calls is followed by its results. -/
theorem paired_buildMessages {messages : List Message}
    (h : AnsweredDirectly (conversationMessages options model messages)) :
    Paired (converted options) (conversationMessages options model messages)
      ((buildMessages options model messages).map MessageParam.turn) := by
  obtain ⟨hpaired, hlevel⟩ := convertMessages_spec options model
    (nativeToolChanges options.compat (resolved options messages)) h
  rw [buildMessages]
  split
  · rw [insertThinkingLevelMessages_turns]
    refine .append_silent (fun turn hturn => ?_) (.inserted (fun pair hpair turn hturn => ?_)
      (fun pair hpair huser => ?_) ?_)
    · rw [mem_singleton] at hturn
      subst hturn
      exact ⟨rfl, rfl⟩
    · obtain ⟨message, -, rfl⟩ := List.mem_map.mp hpair
      obtain ⟨level, -, rfl⟩ := List.mem_map.mp hturn
      exact ⟨rfl, rfl⟩
    · obtain ⟨message, hmessage, rfl⟩ := List.mem_map.mp hpair
      rw [hlevel message hmessage huser]
      rfl
    · rw [leveled, map_map]
      exact hpaired
  · rw [map_map]
    exact hpaired

variable {r : ToolResultMessage} {image : ImageContent}

theorem mem_images_convertToolResult
    (h : image ∈ r.images) : image ∈ (convertToolResult r).images := by
  obtain ⟨block, hblock, himage⟩ := List.mem_filterMap.mp h
  cases block with
  | text t => cases himage
  | image i =>
    cases himage
    have hany : (r.content.getD []).any (fun block => match block with
        | .image _ => true
        | .text _ => false) = true := List.any_eq_true.mpr ⟨_, hblock, rfl⟩
    have hmap : Block.image image ∈ (r.content.getD []).map (fun block => match block with
        | .text t => Block.text { text := t.text }
        | .image image => .image image) := List.mem_map.mpr ⟨_, hblock, rfl⟩
    simp only [convertToolResult, convertContentBlocks, hany, Bool.not_true,
      Bool.false_eq_true, if_false, BlockKind.images]
    refine List.mem_filterMap.mpr ⟨.image image, ?_, rfl⟩
    split
    · exact hmap
    · exact mem_cons_of_mem _ hmap

variable (options model native) in
theorem step_params (conversion : Conversion) (chunk : Chunk) :
    ∃ more, (conversion.step options model native chunk).params = conversion.params ++ more := by
  cases chunk with
  | results results => exact ⟨_, rfl⟩
  | message message =>
    cases message with
    | system m => exact ⟨[], (append_nil _).symm⟩
    | assistant m => exact ⟨_, append_assoc _ _ _⟩
    | _ => exact ⟨_, rfl⟩

variable (options model native) in
theorem mem_foldl_step {list : List Chunk} {results : List ToolResultMessage}
    (h : .results results ∈ list) (conversion : Conversion) :
    ⟨resultParam results, none⟩ ∈ (list.foldl (Conversion.step options model native)
      conversion).flushPendingSystemMessages.params := by
  have hkeep : ∀ (list : List Chunk) (conversion : Conversion),
      ⟨resultParam results, none⟩ ∈ conversion.params →
      ⟨resultParam results, none⟩
        ∈ (list.foldl (Conversion.step options model native) conversion).params := by
    intro list conversion hmem
    refine List.foldlRecOn (motive := fun conversion : Conversion =>
      ⟨resultParam results, none⟩ ∈ conversion.params) list _ hmem fun conversion hmem chunk _ => ?_
    obtain ⟨more, heq⟩ := step_params options model native conversion chunk
    rw [heq]
    exact mem_append_left _ hmem
  obtain ⟨before, after, rfl⟩ := append_of_mem h
  rw [foldl_append, foldl_cons]
  exact mem_append_left _ (hkeep _ _ (mem_append_right _ (mem_singleton_self _)))

variable (options model native) in
theorem image_convertMessages {messages : List Message}
    (hr : .toolResult r ∈ messages) (h : image ∈ r.images) :
    ∃ message ∈ convertMessages options model native messages,
      image ∈ message.param.turn.images := by
  obtain ⟨results, hchunk, hr⟩ := mem_chunks hr
  have hmem := mem_foldl_step options model native hchunk {}
  have himage : image ∈ (resultParam results).turn.images := by
    refine List.mem_flatMap.mpr ⟨convertToolResult r, ?_, mem_images_convertToolResult h⟩
    simp only [resultParam, MessageContent.kinds, map_map]
    exact List.mem_map.mpr ⟨r, hr, rfl⟩
  rw [convertMessages]
  split
  · have hturn := mem_map_of_mem
      (f := fun message : ConvertedMessage => (message.param.turn, message.assistantLevel)) hmem
    rw [← addCacheControl_turns] at hturn
    obtain ⟨message, hmessage, heq⟩ := List.mem_map.mp hturn
    exact ⟨message, hmessage, (congrArg (fun pair => pair.1.images) heq) ▸ himage⟩
  · exact ⟨_, hmem, himage⟩

/-- **Images**: for a model with image input every image of a result is in the request. -/
theorem image_buildMessages {messages : List Message} (hinput : "image" ∈ model.input)
    (hr : .toolResult r ∈ messages) (h : image ∈ r.images) :
    ∃ turn ∈ (buildMessages options model messages).map MessageParam.turn, image ∈ turn.images := by
  have hresolved : .toolResult r ∈ resolved options messages := by
    rw [resolved, resolveTranscript]
    split
    · exact hr
    · exact mem_collapseSystemMessages hr
  obtain ⟨r', hr', himages⟩ := mem_transformMessages
    (some fun id _ _ => normalizeToolCallId id) hinput hresolved
  have hmem : .toolResult r' ∈ conversationMessages options model messages := by
    rw [conversationMessages]
    split
    · rename_i hsystem
      obtain ⟨m, rest, heq⟩ := transformMessages_system model
        (some fun id _ _ => normalizeToolCallId id) hsystem
      rw [heq] at hr' ⊢
      exact (List.mem_cons.mp hr').resolve_left nofun
    · exact hr'
  obtain ⟨message, hmessage, himage⟩ := image_convertMessages options model
    (nativeToolChanges options.compat (resolved options messages)) hmem (himages ▸ h)
  refine ⟨message.param.turn, mem_map_of_mem ?_, himage⟩
  rw [buildMessages]
  split
  · exact mem_append_left _ (List.mem_flatMap.mpr
      ⟨message, hmessage, mem_append_right _ (mem_singleton_self _)⟩)
  · exact mem_map_of_mem hmessage

end ReflectivePi.Requests.Anthropic
