import ReflectivePi.Lib.MapOption
import ReflectivePi.Requests.WireTurns

/-!
# Requests — Bedrock

The messages of a Bedrock request. Consecutive results become one user
message; an image of another format than the known ones makes the conversion
throw.
-/

namespace ReflectivePi.Requests.Bedrock

open List

def emptyTextPlaceholder : String := "<empty>"

inductive ImageFormat where
  | jpeg | png | gif | webp

structure ImageBlock where
  bytes : List UInt8
  format : ImageFormat

inductive ToolResultContentBlock where
  | text (text : String)
  | image (image : ImageBlock)

inductive ContentBlock where
  | text (text : String)
  | image (image : ImageBlock)
  | toolUse (toolUseId name input : String)
  | toolResult (toolUseId : String) (content : List ToolResultContentBlock) (error : Bool)
  | redactedContent (bytes : List UInt8)
  | reasoningText (text : String) (signature : Option String)
  | cachePoint

structure BedrockMessage where
  role : Role
  content : List ContentBlock

/-- What is known of the model and the environment, and the code that works
on bytes and on JSON values. -/
structure Options where
  supportsThinkingSignature : Bool
  /-- Caching is on, and the model supports it. -/
  cachePoint : Bool
  /-- `none` where the text is not base64. -/
  base64ToBytes : String → Option (List UInt8)
  /-- On the JSON text of the arguments. -/
  sanitizeBedrockDocument : String → String

/-! ## Blocks -/

def imageFormat (mimeType : String) : Option ImageFormat :=
  if mimeType = "image/jpeg" || mimeType = "image/jpg" then some .jpeg
  else if mimeType = "image/png" then some .png
  else if mimeType = "image/gif" then some .gif
  else if mimeType = "image/webp" then some .webp
  else none

/-- `none` where the source throws. -/
def createImageBlock (options : Options) (image : ImageContent) : Option ImageBlock :=
  match imageFormat image.mimeType, options.base64ToBytes image.data with
  | some format, some bytes => some ⟨bytes, format⟩
  | _, _ => none

def createNonBlankTextBlock (text : String) : List ContentBlock :=
  if isBlank text then [] else [.text text]

def createRequiredTextBlock (text : String) : ContentBlock :=
  .text (if isBlank text then emptyTextPlaceholder else text)

def toolResultBlocks (options : Options) : Block → Option (List ToolResultContentBlock)
  | .image image => (createImageBlock options image).map fun block => [.image block]
  | .text t => some (if isBlank t.text then [] else [.text t.text])

def convertToolResultContent (options : Options) (content : List Block) :
    Option (List ToolResultContentBlock) :=
  (content.mapM (toolResultBlocks options)).map fun blocks =>
    if blocks.flatten.isEmpty then [.text emptyTextPlaceholder] else blocks.flatten

def toolResult (options : Options) (r : ToolResultMessage) : Option ContentBlock :=
  (convertToolResultContent options (r.content.getD [])).map fun content =>
    .toolResult r.toolCallId content r.isError

def userBlocks (options : Options) : Block → Option (List ContentBlock)
  | .text t => some (createNonBlankTextBlock t.text)
  | .image image => (createImageBlock options image).map fun block => [.image block]

def userContent (options : Options) (m : UserMessage) : Option (List ContentBlock) :=
  match m.content.getD (.blocks []) with
  | .text text => some [createRequiredTextBlock text]
  | .blocks blocks => (blocks.mapM (userBlocks options)).map fun blocks =>
    if blocks.flatten.isEmpty then [.text emptyTextPlaceholder] else blocks.flatten

def decodeRedactedContent (options : Options) (signature : Option String) : Option (List UInt8) :=
  (signature.filter (· ≠ "")).bind options.base64ToBytes

def toolUse (options : Options) (call : ToolCall) : ContentBlock :=
  .toolUse call.id call.name (options.sanitizeBedrockDocument call.arguments)

def assistantBlock (options : Options) : AssistantBlock → List ContentBlock
  | .text block => createNonBlankTextBlock block.text
  | .toolCall call => [toolUse options call]
  | .thinking block =>
    if block.redacted then
      match decodeRedactedContent options block.thinkingSignature with
      | some bytes => if bytes.isEmpty then [] else [.redactedContent bytes]
      | none => []
    else if isBlank block.thinking then []
    else if options.supportsThinkingSignature then
      match block.thinkingSignature with
      | none => [.text block.thinking]
      | some signature =>
        if isBlank signature then [.text block.thinking]
        else [.reasoningText block.thinking (some signature)]
    else [.reasoningText block.thinking none]

def assistantMessages (options : Options) (m : AssistantMessage) : List BedrockMessage :=
  let contentBlocks := (m.content.getD []).flatMap (assistantBlock options)
  if contentBlocks.isEmpty then [] else [⟨.assistant, contentBlocks⟩]

def resultMessage (options : Options) (results : List ToolResultMessage) : Option BedrockMessage :=
  (results.mapM (toolResult options)).map fun blocks => ⟨.user, blocks⟩

def convertChunk (options : Options) : Chunk → Option (List BedrockMessage)
  | .message (.user m) => (userContent options m).map fun content => [⟨.user, content⟩]
  | .message (.assistant m) => some (assistantMessages options m)
  | .message (.toolResult r) => (resultMessage options [r]).map fun message => [message]
  | .message (.system _) => some []
  | .results results => (resultMessage options results).map fun message => [message]

/-- Add the cache point to the last message if it is a user message. -/
def addCachePoint (messages : List BedrockMessage) : List BedrockMessage :=
  match messages.getLast? with
  | some lastMessage =>
    if lastMessage.role = .user then
      messages.dropLast ++ [{ lastMessage with content := lastMessage.content ++ [.cachePoint] }]
    else messages
  | none => messages

def normalizeToolCallId (id : String) : String :=
  String.ofList ((replaceNonIdChars id).take 64)

/-- What the loop goes over. -/
def transformedMessages (model : Model) (messages : List Message) : List Message :=
  transformMessages (withoutInitialSystemMessage (collapseSystemMessages messages)) model
    (some fun id _ _ => normalizeToolCallId id)

def convertMessages (options : Options) (model : Model) (messages : List Message) :
    Option (List BedrockMessage) :=
  ((chunks (transformedMessages model messages)).mapM (convertChunk options)).map fun converted =>
    if options.cachePoint then addCachePoint converted.flatten else converted.flatten

/-! ## Turns -/

def ContentBlock.isToolUse : ContentBlock → Bool
  | .toolUse .. => true
  | _ => false

def ContentBlock.isToolResult : ContentBlock → Bool
  | .toolResult .. => true
  | _ => false

def ToolResultContentBlock.image? : ToolResultContentBlock → Option ImageBlock
  | .image block => some block
  | .text _ => none

def ContentBlock.images : ContentBlock → List ImageBlock
  | .image block => [block]
  | .toolResult _ content _ => content.filterMap ToolResultContentBlock.image?
  | _ => []

/-- The parts are options, as the conversion of a result may throw. -/
def BedrockMessage.turn (message : BedrockMessage) :
    WireTurn (Option ContentBlock) ImageBlock where
  role := message.role
  calls := (message.content.filter ContentBlock.isToolUse).map some
  results := (message.content.filter ContentBlock.isToolResult).map some
  images := message.content.flatMap ContentBlock.images

def converted (options : Options) : Converted (Option ContentBlock) where
  call := fun _ call => some (toolUse options call)
  result := toolResult options

variable {options : Options} {model : Model}

theorem turn_isSilent {role : Role} {content : List ContentBlock}
    (h : ∀ block ∈ content, block.isToolUse = false ∧ block.isToolResult = false) :
    (BedrockMessage.turn ⟨role, content⟩).isSilent := by
  constructor
  · exact List.map_eq_nil_iff.mpr
      (List.filter_eq_nil_iff.mpr fun block hblock => by simp [(h block hblock).1])
  · exact List.map_eq_nil_iff.mpr
      (List.filter_eq_nil_iff.mpr fun block hblock => by simp [(h block hblock).2])

theorem userContent_isSilent {m : UserMessage} {content : List ContentBlock}
    (h : userContent options m = some content) :
    ∀ block ∈ content, block.isToolUse = false ∧ block.isToolResult = false := by
  intro block hblock
  unfold userContent at h
  split at h
  · cases h
    rw [mem_singleton] at hblock
    subst hblock
    exact ⟨rfl, rfl⟩
  · obtain ⟨blocks, hblocks, rfl⟩ := Option.map_eq_some_iff.mp h
    split at hblock
    · rw [mem_singleton] at hblock
      subst hblock
      exact ⟨rfl, rfl⟩
    · obtain ⟨list, hlist, hblock⟩ := List.mem_flatten.mp hblock
      obtain ⟨source, -, hsource⟩ := mem_of_mapM hblocks hlist
      cases source with
      | text t =>
        cases hsource
        unfold createNonBlankTextBlock at hblock
        split at hblock
        · cases hblock
        · rw [mem_singleton] at hblock
          subst hblock
          exact ⟨rfl, rfl⟩
      | image image =>
        obtain ⟨b, -, rfl⟩ := Option.map_eq_some_iff.mp hsource
        rw [mem_singleton] at hblock
        subst hblock
        exact ⟨rfl, rfl⟩

variable (options) in
theorem filter_assistantBlocks (m : AssistantMessage) :
    ((m.content.getD []).flatMap (assistantBlock options)).filter ContentBlock.isToolUse
        = m.toolCalls.map (toolUse options) ∧
      ((m.content.getD []).flatMap (assistantBlock options)).filter ContentBlock.isToolResult
        = [] := by
  refine filter_blocks (fun block => ?_) m
  cases block with
  | text block =>
    simp only [assistantBlock, createNonBlankTextBlock]
    split <;>
      simp [ContentBlock.isToolUse, ContentBlock.isToolResult, AssistantBlock.toolCall?]
  | thinking block =>
    simp only [assistantBlock]
    repeat' split
    all_goals simp [ContentBlock.isToolUse, ContentBlock.isToolResult, AssistantBlock.toolCall?]
  | toolCall call => exact ⟨rfl, rfl⟩

theorem assistantMessages_isSilent {m : AssistantMessage} (h : m.toolCalls = []) :
    ∀ message ∈ assistantMessages options m, message.turn.isSilent := by
  intro message hmessage
  simp only [assistantMessages] at hmessage
  split at hmessage
  · cases hmessage
  · rw [mem_singleton] at hmessage
    subst hmessage
    obtain ⟨hcall, hresult⟩ := filter_assistantBlocks options m
    rw [h, map_nil] at hcall
    exact ⟨List.map_eq_nil_iff.mpr hcall, List.map_eq_nil_iff.mpr hresult⟩

variable (options) in
theorem assistantMessages_eq {m : AssistantMessage} (h : m.toolCalls ≠ []) :
    ∃ message, assistantMessages options m = [message] ∧ message.turn.role = .assistant ∧
      message.turn.calls = m.toolCalls.map ((converted options).call m) ∧
      message.turn.results = [] := by
  obtain ⟨hcall, hresult⟩ := filter_assistantBlocks options m
  simp only [assistantMessages]
  rw [if_neg]
  · refine ⟨_, rfl, rfl, ?_, ?_⟩
    · rw [BedrockMessage.turn, hcall, map_map]
      rfl
    · rw [BedrockMessage.turn, hresult]
      rfl
  · rw [List.isEmpty_iff]
    intro hnil
    rw [hnil] at hcall
    exact h (List.map_eq_nil_iff.mp hcall.symm)

theorem resultMessage_turn {results : List ToolResultMessage} {message : BedrockMessage}
    (h : resultMessage options results = some message) :
    message.turn.role = .user ∧ message.turn.calls = [] ∧
      message.turn.results = results.map (converted options).result := by
  obtain ⟨blocks, hblocks, rfl⟩ := Option.map_eq_some_iff.mp h
  have hkind : ∀ block ∈ blocks, block.isToolUse = false ∧ block.isToolResult = true := by
    intro block hblock
    obtain ⟨r, -, hr⟩ := mem_of_mapM hblocks hblock
    obtain ⟨content, -, rfl⟩ := Option.map_eq_some_iff.mp hr
    exact ⟨rfl, rfl⟩
  refine ⟨rfl, ?_, ?_⟩
  · exact List.map_eq_nil_iff.mpr
      (List.filter_eq_nil_iff.mpr fun block hblock => by simp [(hkind block hblock).1])
  · rw [BedrockMessage.turn, List.filter_eq_self.mpr fun block hblock => (hkind block hblock).2]
    exact (map_of_mapM hblocks).symm

variable {messages : List Message}

/-- **The loop** writes turns that pair. -/
theorem paired_convertChunks (h : AnsweredDirectly messages) {lists : List (List BedrockMessage)}
    (hlists : (chunks messages).mapM (convertChunk options) = some lists) :
    Paired (converted options) messages (lists.flatten.map BedrockMessage.turn) := by
  induction h generalizing lists with
  | nil =>
    cases hlists
    exact .nil
  | @other message rest hsilent _ ih =>
    rw [chunks_message (.inl hsilent)] at hlists
    obtain ⟨first, later, hfirst, hlater, rfl⟩ := mapM_cons_eq_some hlists
    rw [flatten_cons, map_append]
    refine .message hsilent (.silent (fun turn hturn => ?_) (ih hlater))
    obtain ⟨bedrock, hbedrock, rfl⟩ := List.mem_map.mp hturn
    cases message with
    | toolResult r => cases hsilent
    | system m =>
      cases hfirst
      cases hbedrock
    | user m =>
      obtain ⟨content, hcontent, rfl⟩ := Option.map_eq_some_iff.mp hfirst
      rw [mem_singleton] at hbedrock
      subst hbedrock
      exact turn_isSilent (userContent_isSilent hcontent)
    | assistant m =>
      cases hfirst
      exact assistantMessages_isSilent (List.isEmpty_iff.mp hsilent) bedrock hbedrock
  | @exchange m results rest hcalls hanswers hrest ih =>
    rw [chunks_message (.inr ⟨m, rfl⟩), chunks_results (results_ne_nil hcalls hanswers)
      hrest.starts] at hlists
    obtain ⟨first, more, hfirst, hmore, rfl⟩ := mapM_cons_eq_some hlists
    obtain ⟨second, later, hsecond, hlater, rfl⟩ := mapM_cons_eq_some hmore
    obtain ⟨assistant, hassistant, hturn⟩ := assistantMessages_eq options hcalls
    obtain ⟨user, huser, rfl⟩ := Option.map_eq_some_iff.mp hsecond
    rw [convertChunk, hassistant] at hfirst
    cases hfirst
    exact .exchange hcalls hanswers hturn (resultMessage_turn huser) (ih hlater)

theorem addCachePoint_turns (messages : List BedrockMessage) :
    (addCachePoint messages).map BedrockMessage.turn = messages.map BedrockMessage.turn := by
  rcases eq_nil_or_concat messages with rfl | ⟨messages, last, rfl⟩
  · rfl
  · simp only [addCachePoint, concat_eq_append, getLast?_concat, dropLast_concat]
    split
    · simp [BedrockMessage.turn, ContentBlock.isToolUse, ContentBlock.isToolResult,
        ContentBlock.images]
    · rfl

variable {request : List BedrockMessage}

theorem convertMessages_turns (h : convertMessages options model messages = some request) :
    ∃ lists, (chunks (transformedMessages model messages)).mapM (convertChunk options) = some lists
      ∧ request.map BedrockMessage.turn = lists.flatten.map BedrockMessage.turn := by
  obtain ⟨lists, hlists, rfl⟩ := Option.map_eq_some_iff.mp h
  refine ⟨lists, hlists, ?_⟩
  split
  · exact addCachePoint_turns _
  · rfl

/-- **The request**: every turn with calls is followed by its results. -/
theorem paired_convertMessages (hrequest : convertMessages options model messages = some request)
    (h : AnsweredDirectly (transformedMessages model messages)) :
    Paired (converted options) (transformedMessages model messages)
      (request.map BedrockMessage.turn) := by
  obtain ⟨lists, hlists, heq⟩ := convertMessages_turns hrequest
  rw [heq]
  exact paired_convertChunks h hlists

theorem image_toolResult {r : ToolResultMessage} {block : ContentBlock}
    (h : toolResult options r = some block) {image : ImageContent} (himage : image ∈ r.images) :
    ∃ converted, createImageBlock options image = some converted ∧ converted ∈ block.images := by
  obtain ⟨content, hcontent, rfl⟩ := Option.map_eq_some_iff.mp h
  obtain ⟨lists, hlists, rfl⟩ := Option.map_eq_some_iff.mp hcontent
  obtain ⟨source, hsource, hsome⟩ := List.mem_filterMap.mp himage
  cases source with
  | text t => cases hsome
  | image i =>
    cases hsome
    have hmem : toolResultBlocks options (.image image) ∈ lists.map some :=
      map_of_mapM hlists ▸ mem_map_of_mem hsource
    obtain ⟨list, hlist, heq⟩ := List.mem_map.mp hmem
    obtain ⟨converted, hconverted, hblock⟩ := Option.map_eq_some_iff.mp heq.symm
    subst hblock
    have hflat : ToolResultContentBlock.image converted ∈ lists.flatten :=
      List.mem_flatten.mpr ⟨_, hlist, mem_singleton_self _⟩
    refine ⟨converted, hconverted, List.mem_filterMap.mpr ⟨.image converted, ?_, rfl⟩⟩
    rw [if_neg]
    · exact hflat
    · rw [List.isEmpty_iff]
      exact ne_nil_of_mem hflat

/-- **Images**: for a model with image input every image of a result is in the request. -/
theorem image_convertMessages (hrequest : convertMessages options model messages = some request)
    (hinput : "image" ∈ model.input) {r : ToolResultMessage}
    (hr : .toolResult r ∈ messages) {image : ImageContent} (h : image ∈ r.images) :
    ∃ converted, createImageBlock options image = some converted ∧
      ∃ turn ∈ request.map BedrockMessage.turn, converted ∈ turn.images := by
  obtain ⟨r', hr', himages⟩ := mem_transformMessages
    (some fun id _ _ => normalizeToolCallId id) hinput
    (mem_withoutInitialSystemMessage (mem_collapseSystemMessages hr))
  obtain ⟨results, hchunk, hmem⟩ := mem_chunks hr'
  obtain ⟨lists, hlists, heq⟩ := convertMessages_turns hrequest
  have hlist : convertChunk options (.results results) ∈ lists.map some :=
    map_of_mapM hlists ▸ mem_map_of_mem hchunk
  obtain ⟨list, hlist, hchunk⟩ := List.mem_map.mp hlist
  obtain ⟨message, hmessage, hsingle⟩ := Option.map_eq_some_iff.mp hchunk.symm
  obtain ⟨blocks, hblocks, rfl⟩ := Option.map_eq_some_iff.mp hmessage
  have hblock : toolResult options r' ∈ blocks.map some := map_of_mapM hblocks ▸ mem_map_of_mem hmem
  obtain ⟨block, hblock, hresult⟩ := List.mem_map.mp hblock
  obtain ⟨converted, hconverted, himage⟩ := image_toolResult hresult.symm (himages ▸ h)
  refine ⟨converted, hconverted, BedrockMessage.turn ⟨.user, blocks⟩, ?_,
    List.mem_flatMap.mpr ⟨block, hblock, himage⟩⟩
  rw [heq]
  refine mem_map_of_mem (List.mem_flatten.mpr ⟨list, hlist, ?_⟩)
  rw [← hsingle]
  exact mem_singleton_self _

end ReflectivePi.Requests.Bedrock
