import ReflectivePi.Requests.WireTurns

/-!
# Requests — Gemini

The contents of a request to a Google API. A result is merged into the last
content where that is a user turn with function responses; a model that
takes no images inside a function response gets them in a turn of their own.
-/

namespace ReflectivePi.Requests.Gemini

open List

/-- The digits after `gemini-` or `gemini-live-`. -/
def getGeminiMajorVersion (modelId : String) : Option Nat :=
  let lower := modelId.toList.map Char.toLower
  let digits (rest : List Char) : Option Nat := match rest.takeWhile Char.isDigit with
    | [] => none
    | first :: more => some ((first :: more).foldl (fun n c => 10 * n + (c.toNat - 48)) 0)
  if "gemini-live-".toList.isPrefixOf lower then digits (lower.drop 12)
  else if "gemini-".toList.isPrefixOf lower then digits (lower.drop 7)
  else none

/-- Models that require explicit tool call ids. -/
def requiresToolCallId (modelId : String) : Bool :=
  "claude-".toList.isPrefixOf modelId.toList || "gpt-oss-".toList.isPrefixOf modelId.toList ||
    (getGeminiMajorVersion modelId).any (3 ≤ ·)

def supportsMultimodalFunctionResponse (modelId : String) : Bool :=
  (getGeminiMajorVersion modelId).all (3 ≤ ·)

inductive Part where
  | text (text : String) (thoughtSignature : Option String)
  | thought (text : String) (thoughtSignature : Option String)
  | inlineData (image : ImageContent)
  | functionCall (name args : String) (id thoughtSignature : Option String)
  /-- The value is that of the key `error` or `output`. -/
  | functionResponse (name : String) (isError : Bool) (value : String)
      (parts : List ImageContent) (id : Option String)

structure Content where
  /-- The role `user`, else `model`. -/
  user : Bool
  parts : List Part

/-- A letter, a digit, `+` or `/`. -/
def isBase64 (c : Char) : Bool := c.isAlphanum || c = '+' || c = '/'

/-- At least one base64 character, and at most two signs `=` at the end. -/
def isValidThoughtSignature (signature : Option String) : Bool :=
  match signature with
  | none => false
  | some signature =>
    let padding := signature.toList.dropWhile isBase64
    signature.length % 4 = 0 && (signature.toList.takeWhile isBase64).length > 0 &&
      padding.all (· = '=') && padding.length ≤ 2

def resolveThoughtSignature (isSameProviderAndModel : Bool) (signature : Option String) :
    Option String :=
  if isSameProviderAndModel && isValidThoughtSignature signature then signature else none

/-! ## Messages -/

def isSameProviderAndModel (model : Model) (m : AssistantMessage) : Bool :=
  m.provider = model.provider && m.model = model.id

def userPart : Block → Part
  | .text t => .text t.text none
  | .image image => .inlineData image

def userContents (m : UserMessage) : List Content :=
  match m.content.getD (.blocks []) with
  | .text text => [⟨true, [.text text none]⟩]
  | .blocks blocks => if blocks.isEmpty then [] else [⟨true, blocks.map userPart⟩]

def functionCall (model : Model) (m : AssistantMessage) (call : ToolCall) : Part :=
  .functionCall call.name call.arguments
    (if requiresToolCallId model.id then some call.id else none)
    (resolveThoughtSignature (isSameProviderAndModel model m) call.thoughtSignature)

def assistantParts (model : Model) (m : AssistantMessage) : AssistantBlock → List Part
  | .text block =>
    let thoughtSignature :=
      resolveThoughtSignature (isSameProviderAndModel model m) block.textSignature
    if isBlank block.text && thoughtSignature.isNone then []
    else [.text block.text thoughtSignature]
  | .thinking block =>
    if isSameProviderAndModel model m then
      let thoughtSignature :=
        resolveThoughtSignature (isSameProviderAndModel model m) block.thinkingSignature
      if isBlank block.thinking && thoughtSignature.isNone then []
      else [.thought block.thinking thoughtSignature]
    else if isBlank block.thinking then [] else [.text block.thinking none]
  | .toolCall call => [functionCall model m call]

def assistantContents (model : Model) (m : AssistantMessage) : List Content :=
  let parts := (m.content.getD []).flatMap (assistantParts model m)
  if parts.isEmpty then [] else [⟨false, parts⟩]

/-- The images of a result, for a model with image input. -/
def imageContent (model : Model) (r : ToolResultMessage) : List ImageContent :=
  if "image" ∈ model.input then r.images else []

def textResult (r : ToolResultMessage) : String :=
  "\n".intercalate ((r.content.getD []).filterMap fun block =>
    match block with
    | .text t => some t.text
    | .image _ => none)

def functionResponse (model : Model) (r : ToolResultMessage) : Part :=
  let hasImages := !(imageContent model r).isEmpty
  .functionResponse r.toolName r.isError (if textResult r ≠ "" then textResult r
      else if hasImages then "(see attached image)" else "")
    (if hasImages && supportsMultimodalFunctionResponse model.id then imageContent model r else [])
    (if requiresToolCallId model.id then some r.toolCallId else none)

def Part.isFunctionCall : Part → Bool
  | .functionCall .. => true
  | _ => false

def Part.isFunctionResponse : Part → Bool
  | .functionResponse .. => true
  | _ => false

/-- A function response goes into the last content where that is a user
turn with function responses already. -/
def pushFunctionResponse (contents : List Content) (part : Part) : List Content :=
  match contents.getLast? with
  | some lastContent =>
    if lastContent.user && lastContent.parts.any Part.isFunctionResponse then
      contents.dropLast ++ [⟨true, lastContent.parts ++ [part]⟩]
    else contents ++ [⟨true, [part]⟩]
  | none => contents ++ [⟨true, [part]⟩]

/-- The turn with a result's images, for a model that takes none inside a
function response. -/
def imageContents (model : Model) (r : ToolResultMessage) : List Content :=
  if !(imageContent model r).isEmpty && !supportsMultimodalFunctionResponse model.id then
    [⟨true, .text "Tool result image:" none :: (imageContent model r).map .inlineData⟩]
  else []

def pushMessage (model : Model) (contents : List Content) : Message → List Content
  | .user m => contents ++ userContents m
  | .assistant m => contents ++ assistantContents model m
  | .toolResult r =>
    pushFunctionResponse contents (functionResponse model r) ++ imageContents model r
  | .system _ => contents

def normalizeToolCallId (model : Model) (id : String) : String :=
  if requiresToolCallId model.id then String.ofList ((replaceNonIdChars id).take 64) else id

/-- What the loop goes over. -/
def transformedMessages (model : Model) (messages : List Message) : List Message :=
  transformMessages (withoutInitialSystemMessage (collapseSystemMessages messages)) model
    (some fun id _ _ => normalizeToolCallId model id)

def convertMessages (model : Model) (messages : List Message) : List Content :=
  (transformedMessages model messages).foldl (pushMessage model) []

def Part.images : Part → List ImageContent
  | .inlineData image => [image]
  | .functionResponse _ _ _ parts _ => parts
  | _ => []

def Content.turn (content : Content) : WireTurn Part ImageContent where
  role := if content.user then .user else .assistant
  calls := content.parts.filter Part.isFunctionCall
  results := content.parts.filter Part.isFunctionResponse
  images := content.parts.flatMap Part.images

def converted (model : Model) : Converted Part where
  call := functionCall model
  result := functionResponse model

variable {model : Model}

variable {contents : List Content}

theorem pushFunctionResponse_append (before : List Content) (h : contents ≠ []) (part : Part) :
    pushFunctionResponse (before ++ contents) part
      = before ++ pushFunctionResponse contents part := by
  obtain ⟨contents, last, rfl⟩ := eq_nil_or_concat contents |>.resolve_left h
  rw [pushFunctionResponse, pushFunctionResponse, concat_eq_append, ← append_assoc]
  simp only [getLast?_concat, dropLast_concat]
  split <;> simp

theorem pushMessage_append (before : List Content) (h : contents ≠ []) (message : Message) :
    pushMessage model (before ++ contents) message
      = before ++ pushMessage model contents message := by
  cases message with
  | toolResult r => simp only [pushMessage, pushFunctionResponse_append before h, append_assoc]
  | _ => simp only [pushMessage, append_assoc]

theorem pushMessage_ne_nil (h : contents ≠ []) (message : Message) :
    pushMessage model contents message ≠ [] := by
  cases message with
  | toolResult r =>
    have hpush : ∀ part, pushFunctionResponse contents part ≠ [] := by
      intro part
      unfold pushFunctionResponse
      split
      · split <;> simp
      · simp
    exact append_ne_nil_of_left_ne_nil (hpush _) _
  | system m => exact h
  | _ => exact append_ne_nil_of_left_ne_nil h _

theorem foldl_pushMessage_append (before : List Content) (h : contents ≠ [])
    (messages : List Message) :
    messages.foldl (pushMessage model) (before ++ contents)
      = before ++ messages.foldl (pushMessage model) contents := by
  induction messages generalizing contents with
  | nil => rfl
  | cons message rest ih =>
    rw [foldl_cons, foldl_cons, pushMessage_append before h]
    exact ih (pushMessage_ne_nil h message)

/-! ## Results one after another -/

/-- The contents for results that come one after another. -/
def resultContents (model : Model) (results : List ToolResultMessage) : List Content :=
  (results.map Message.toolResult).foldl (pushMessage model) []

/-- The last content is not one that a function response goes into. -/
def Closed (contents : List Content) : Prop :=
  ∀ last, contents.getLast? = some last →
    (last.user && last.parts.any Part.isFunctionResponse) = false

theorem Closed.push (h : Closed contents) (part : Part) :
    pushFunctionResponse contents part = contents ++ [⟨true, [part]⟩] := by
  unfold pushFunctionResponse
  split
  · rename_i last hlast
    rw [h last hlast]
    rfl
  · rfl

theorem Closed.results (h : Closed contents) (results : List ToolResultMessage) :
    (results.map Message.toolResult).foldl (pushMessage model) contents
      = contents ++ resultContents model results := by
  cases results with
  | nil => simp [resultContents]
  | cons r results =>
    have hnil : Closed [] := fun last hlast => by cases hlast
    simp only [resultContents, map_cons, foldl_cons, pushMessage, h.push,
      hnil.push, append_assoc, nil_append]
    exact foldl_pushMessage_append contents (by simp) _

variable {parts : List Part} {r : ToolResultMessage} {results : List ToolResultMessage}
  {message : Message} {image : ImageContent}

theorem pushFunctionResponse_merge (hparts : parts.any Part.isFunctionResponse) (part : Part) :
    pushFunctionResponse [⟨true, parts⟩] part = [⟨true, parts ++ [part]⟩] := by
  simp [pushFunctionResponse, hparts]

theorem imageContents_isSilent (r : ToolResultMessage) :
    ∀ content ∈ imageContents model r, content.turn.isSilent := by
  intro content hcontent
  unfold imageContents at hcontent
  split at hcontent
  · rw [mem_singleton] at hcontent
    subst hcontent
    constructor
    · simp [Content.turn, Part.isFunctionCall, filter_map]
    · simp [Content.turn, Part.isFunctionResponse, filter_map]
  · cases hcontent

/-- The results go into one turn, up to the first one with a turn for its
images. -/
def GoInto (model : Model) (parts : List Part) (results : List ToolResultMessage)
    (contents : List Content) : Prop :=
  ∃ first rest more, results = first ++ rest ∧
    contents = ⟨true, parts ++ first.map (functionResponse model)⟩ :: more ∧
    first.IsChain (fun r _ => imageContents model r = []) ∧
    (rest = [] → ∀ content ∈ more, content.turn.isSilent) ∧
    (rest ≠ [] → ∃ last ∈ first.getLast?, imageContents model last ≠ [])

theorem GoInto.cons
    (h : GoInto model (parts ++ [functionResponse model r]) results
      ((results.map Message.toolResult).foldl (pushMessage model)
        [⟨true, parts ++ [functionResponse model r]⟩])) :
    GoInto model parts (r :: results) ((results.map Message.toolResult).foldl (pushMessage model)
      (⟨true, parts ++ [functionResponse model r]⟩ :: imageContents model r)) := by
  by_cases himages : imageContents model r = []
  · obtain ⟨first, rest, more, rfl, hfold, hchain, hsilent, hlast⟩ := h
    refine ⟨r :: first, rest, more, rfl, ?_, ?_, hsilent, fun hrest => ?_⟩
    · rw [himages, hfold, map_cons, append_assoc]
      rfl
    · exact List.isChain_cons.mpr ⟨fun _ _ => himages, hchain⟩
    · obtain ⟨last, hlast, hne⟩ := hlast hrest
      refine ⟨last, ?_, hne⟩
      rw [getLast?_cons, hlast]
      rfl
  · refine ⟨[r], results, _, rfl,
      foldl_pushMessage_append [_] himages (results.map Message.toolResult),
      isChain_singleton _, fun hrest => ?_, fun _ => ⟨r, rfl, himages⟩⟩
    subst hrest
    exact imageContents_isSilent r

theorem foldl_results (hparts : parts.any Part.isFunctionResponse)
    (results : List ToolResultMessage) :
    GoInto model parts results
      ((results.map Message.toolResult).foldl (pushMessage model) [⟨true, parts⟩]) := by
  induction results generalizing parts with
  | nil => exact ⟨[], [], [], rfl, by simp, .nil, by simp, by simp⟩
  | cons r results ih =>
    have hstep : pushMessage model [⟨true, parts⟩] (.toolResult r)
        = ⟨true, parts ++ [functionResponse model r]⟩ :: imageContents model r := by
      rw [pushMessage, pushFunctionResponse_merge hparts]
      rfl
    rw [map_cons, foldl_cons, hstep]
    exact GoInto.cons (ih (by simp [hparts]))

variable (model) in
theorem resultContents_eq (hresults : results ≠ []) :
    GoInto model [] results (resultContents model results) := by
  cases results with
  | nil => exact absurd rfl hresults
  | cons r results => exact @GoInto.cons model [] r results (foldl_results rfl results)

/-! ## The contents of a transcript -/

/-- What one chunk of the messages comes to. -/
def chunkContents (model : Model) : Chunk → List Content
  | .message message => pushMessage model [] message
  | .results results => resultContents model results

variable (model) in
theorem filter_assistantParts (m : AssistantMessage) :
    ((m.content.getD []).flatMap (assistantParts model m)).filter Part.isFunctionCall
        = m.toolCalls.map (functionCall model m) ∧
      ((m.content.getD []).flatMap (assistantParts model m)).filter Part.isFunctionResponse
        = [] := by
  refine filter_blocks (fun block => ?_) m
  cases block with
  | text block =>
    simp only [assistantParts]
    split <;> simp [Part.isFunctionCall, Part.isFunctionResponse, AssistantBlock.toolCall?]
  | thinking block =>
    simp only [assistantParts]
    split
    · split <;> simp [Part.isFunctionCall, Part.isFunctionResponse, AssistantBlock.toolCall?]
    · split <;> simp [Part.isFunctionCall, Part.isFunctionResponse, AssistantBlock.toolCall?]
  | toolCall call => exact ⟨rfl, rfl⟩

variable (model) in
theorem assistantContents_eq {m : AssistantMessage} (hcalls : m.toolCalls ≠ []) :
    ∃ parts, assistantContents model m = [⟨false, parts⟩] ∧
      parts.filter Part.isFunctionCall = m.toolCalls.map (functionCall model m) ∧
      parts.filter Part.isFunctionResponse = [] := by
  obtain ⟨hcall, hresponse⟩ := filter_assistantParts model m
  refine ⟨(m.content.getD []).flatMap (assistantParts model m), ?_, hcall, hresponse⟩
  rw [assistantContents, if_neg]
  rw [List.isEmpty_iff]
  intro hnil
  rw [hnil] at hcall
  exact hcalls (List.map_eq_nil_iff.mp hcall.symm)

theorem pushMessage_silent (h : message.isSilent) (contents : List Content) :
    pushMessage model contents message = contents ++ pushMessage model [] message := by
  cases message with
  | toolResult r => cases h
  | system m => simp [pushMessage]
  | _ => rfl

variable {messages : List Message}

/-- **The loop**: each chunk of the messages adds its contents. -/
theorem foldl_pushMessage (h : AnsweredDirectly messages) (contents : List Content) :
    messages.foldl (pushMessage model) contents
      = contents ++ (chunks messages).flatMap (chunkContents model) := by
  induction h generalizing contents with
  | nil => simp [chunks]
  | other hsilent _ ih =>
    rw [foldl_cons, pushMessage_silent hsilent, ih, chunks_message (.inl hsilent),
      flatMap_cons, append_assoc]
    rfl
  | @exchange m results rest hcalls hanswers hrest ih =>
    obtain ⟨parts, hparts, -, -⟩ := assistantContents_eq model hcalls
    have hassistant : ∀ contents, pushMessage model contents (.assistant m)
        = contents ++ [⟨false, parts⟩] := fun contents => by rw [pushMessage, hparts]
    have hclosed : Closed (contents ++ [⟨false, parts⟩]) := by
      intro last hlast
      rw [getLast?_concat] at hlast
      cases hlast
      rfl
    rw [foldl_cons, foldl_append, hassistant, hclosed.results, ih,
      chunks_message (.inr ⟨m, rfl⟩), chunks_results (results_ne_nil hcalls hanswers) hrest.starts]
    simp only [flatMap_cons, chunkContents, hassistant, append_assoc, nil_append]

/-- The turns that the loop writes for the messages. -/
def turns (model : Model) (messages : List Message) : List (WireTurn Part ImageContent) :=
  ((chunks messages).flatMap (chunkContents model)).map Content.turn

/-- A result with a turn for its images is not directly followed by another one. -/
def Apart (model : Model) : Message → Message → Prop
  | .toolResult r, .toolResult _ => imageContents model r = []
  | _, _ => True

theorem turns_silent (h : message.isSilent) (rest : List Message) :
    turns model (message :: rest)
      = (pushMessage model [] message).map Content.turn ++ turns model rest := by
  rw [turns, chunks_message (.inl h), flatMap_cons, map_append]
  rfl

theorem pushMessage_turns_silent (h : message.isSilent) :
    ∀ turn ∈ (pushMessage model [] message).map Content.turn, turn.isSilent := by
  have huser : ∀ blocks : List Block, ((blocks.map userPart).filter Part.isFunctionCall = [] ∧
        (blocks.map userPart).filter Part.isFunctionResponse = []) := by
    intro blocks
    constructor
    · refine List.filter_eq_nil_iff.mpr fun part hpart => ?_
      obtain ⟨block, -, rfl⟩ := List.mem_map.mp hpart
      cases block <;> simp [userPart, Part.isFunctionCall]
    · refine List.filter_eq_nil_iff.mpr fun part hpart => ?_
      obtain ⟨block, -, rfl⟩ := List.mem_map.mp hpart
      cases block <;> simp [userPart, Part.isFunctionResponse]
  cases message with
  | toolResult r => cases h
  | system m => simp [pushMessage]
  | user m =>
    intro turn hturn
    obtain ⟨content, hcontent, rfl⟩ := List.mem_map.mp hturn
    simp only [pushMessage, userContents, nil_append] at hcontent
    split at hcontent
    · rw [mem_singleton] at hcontent
      subst hcontent
      exact ⟨rfl, rfl⟩
    · split at hcontent
      · cases hcontent
      · rw [mem_singleton] at hcontent
        subst hcontent
        exact huser _
  | assistant m =>
    intro turn hturn
    obtain ⟨content, hcontent, rfl⟩ := List.mem_map.mp hturn
    simp only [pushMessage, assistantContents, nil_append] at hcontent
    split at hcontent
    · cases hcontent
    · rw [mem_singleton] at hcontent
      subst hcontent
      obtain ⟨hcall, hresponse⟩ := filter_assistantParts model m
      rw [List.isEmpty_iff.mp h] at hcall
      exact ⟨hcall, hresponse⟩

variable (model) in
theorem turns_exchange {m : AssistantMessage} {rest : List Message} (hcalls : m.toolCalls ≠ [])
    (hanswers : (results.map ToolResultMessage.toolCallId).Perm m.callIds)
    (hrest : AnsweredDirectly rest) :
    ∃ assistant first later more, results = first ++ later ∧
      turns model (.assistant m :: (results.map .toolResult ++ rest))
        = assistant :: Content.turn ⟨true, first.map (functionResponse model)⟩
          :: (more ++ turns model rest) ∧
      (assistant.role = .assistant ∧
        assistant.calls = m.toolCalls.map ((converted model).call m) ∧ assistant.results = []) ∧
      first.IsChain (fun r _ => imageContents model r = []) ∧
      (later = [] → ∀ turn ∈ more, turn.isSilent) ∧
      (later ≠ [] → ∃ last ∈ first.getLast?, imageContents model last ≠ []) := by
  have hresults := results_ne_nil hcalls hanswers
  obtain ⟨parts, hparts, hcall, hresponse⟩ := assistantContents_eq model hcalls
  obtain ⟨first, later, more, hsplit, hcontents, hchain, hsilent, hlast⟩ :=
    resultContents_eq model hresults
  refine ⟨Content.turn ⟨false, parts⟩, first, later, more.map Content.turn, hsplit, ?_,
    ⟨rfl, hcall, hresponse⟩, hchain, fun hlater turn hturn => ?_, hlast⟩
  · rw [turns, chunks_message (.inr ⟨m, rfl⟩), chunks_results hresults hrest.starts]
    simp only [flatMap_cons, chunkContents, pushMessage, hparts, hcontents]
    simp [turns]
  · obtain ⟨content, hcontent, rfl⟩ := List.mem_map.mp hturn
    exact hsilent hlater content hcontent

theorem filter_functionResponse (results : List ToolResultMessage) :
    (results.map (functionResponse model)).filter Part.isFunctionCall = [] ∧
      (results.map (functionResponse model)).filter Part.isFunctionResponse
        = results.map (converted model).result := by
  constructor
  · refine List.filter_eq_nil_iff.mpr fun part hpart => ?_
    obtain ⟨r, -, rfl⟩ := List.mem_map.mp hpart
    exact Bool.false_ne_true
  · refine List.filter_eq_self.mpr fun part hpart => ?_
    obtain ⟨r, -, rfl⟩ := List.mem_map.mp hpart
    rfl

theorem paired_of_apart (h : AnsweredDirectly messages) (hapart : messages.IsChain (Apart model)) :
    Paired (converted model) messages (turns model messages) := by
  induction h with
  | nil => exact .nil
  | other hsilent _ ih =>
    rw [turns_silent hsilent]
    exact .message hsilent (.silent (pushMessage_turns_silent hsilent) (ih hapart.tail))
  | @exchange m results rest hcalls hanswers hrest ih =>
    obtain ⟨assistant, first, later, more, hsplit, hturns, hassistant, hchain, hsilent, hlast⟩ :=
      turns_exchange model hcalls hanswers hrest
    obtain ⟨hresults, hapart, -⟩ := List.isChain_append.mp hapart.tail
    have hlater : later = [] := by
      by_contra hne
      obtain ⟨last, hmem, himages⟩ := hlast hne
      rw [hsplit, map_append, isChain_append] at hresults
      obtain ⟨next, later, rfl⟩ := exists_cons_of_ne_nil hne
      refine himages (hresults.2.2 (.toolResult last) ?_ (.toolResult next) rfl)
      rw [getLast?_map, hmem]
      rfl
    rw [hturns]
    subst hlater
    rw [append_nil] at hsplit
    subst hsplit
    exact .exchange hcalls hanswers hassistant
      ⟨rfl, (filter_functionResponse _).1, (filter_functionResponse _).2⟩
      (.silent (hsilent rfl) (ih hapart))

theorem short_of_not_apart (h : AnsweredDirectly messages)
    (hapart : ¬ messages.IsChain (Apart model)) :
    ∃ before turn next after, turns model messages = before ++ turn :: next :: after ∧
      turn.calls ≠ [] ∧ next.results.length ≠ turn.calls.length := by
  induction h with
  | nil => exact absurd .nil hapart
  | @other message rest hsilent _ ih =>
    have hrest : ¬ rest.IsChain (Apart model) := by
      refine fun hchain => hapart (List.isChain_cons.mpr ⟨fun next _ => ?_, hchain⟩)
      cases message with
      | toolResult r => cases hsilent
      | _ => trivial
    obtain ⟨before, turn, next, after, heq, hcalls, hlength⟩ := ih hrest
    refine ⟨(pushMessage model [] message).map Content.turn ++ before, turn, next, after, ?_,
      hcalls, hlength⟩
    rw [turns_silent hsilent, heq, append_assoc]
  | @exchange m results rest hcalls hanswers hrest ih =>
    obtain ⟨assistant, first, later, more, hsplit, hturns, hassistant, hchain, hsilent, hlast⟩ :=
      turns_exchange model hcalls hanswers hrest
    by_cases hlater : later = []
    · subst hlater
      rw [append_nil] at hsplit
      subst hsplit
      have hrest' : ¬ rest.IsChain (Apart model) := by
        refine fun hchain' => hapart (List.isChain_cons.mpr ⟨fun _ _ => trivial,
          List.isChain_append.mpr ⟨?_, hchain', fun last _ next hnext => ?_⟩⟩)
        · rw [isChain_map]
          exact hchain
        · cases next with
          | toolResult r =>
            cases rest with
            | nil => cases hnext
            | cons message rest =>
              cases hnext
              exact absurd rfl (hrest.starts r rest)
          | _ => cases last <;> trivial
      obtain ⟨before, turn, next, after, heq, hcalls', hlength⟩ := ih hrest'
      exact ⟨assistant :: Content.turn ⟨true, results.map (functionResponse model)⟩
        :: more ++ before, turn, next, after, by rw [hturns, heq]; simp, hcalls', hlength⟩
    · refine ⟨[], assistant, _, _, hturns, ?_, ?_⟩
      · rw [hassistant.2.1]
        exact fun hnil => hcalls (List.map_eq_nil_iff.mp hnil)
      · have hlength := length_results hanswers
        rw [hsplit, length_append] at hlength
        have hpos := List.length_pos_iff.mpr hlater
        rw [hassistant.2.1, length_map, Content.turn, (filter_functionResponse _).2, length_map]
        omega

/-- **Parallel results**: the turns pair if and only if no result with a turn
for its images is directly followed by another one. -/
theorem paired_iff_apart (h : AnsweredDirectly messages) :
    Paired (converted model) messages (turns model messages) ↔ messages.IsChain (Apart model) := by
  refine ⟨fun hpaired => ?_, paired_of_apart h⟩
  by_contra hapart
  obtain ⟨before, turn, next, after, heq, hcalls, hlength⟩ := short_of_not_apart h hapart
  exact hlength (hpaired.followed heq hcalls)

def images (contents : List Content) : List ImageContent :=
  contents.flatMap fun content => content.parts.flatMap Part.images

theorem images_pushFunctionResponse (contents : List Content) (part : Part) :
    images (pushFunctionResponse contents part) = images contents ++ part.images := by
  rcases eq_nil_or_concat contents with rfl | ⟨contents, last, rfl⟩
  · simp [images, pushFunctionResponse]
  · simp only [pushFunctionResponse, concat_eq_append, getLast?_concat, dropLast_concat]
    split <;> simp [images]

theorem mem_images_pushMessage (h : image ∈ images contents)
    (message : Message) : image ∈ images (pushMessage model contents message) := by
  have happend : ∀ more, image ∈ images (contents ++ more) := by
    intro more
    rw [images, flatMap_append]
    exact mem_append_left _ h
  cases message with
  | toolResult r =>
    rw [pushMessage, images, flatMap_append, ← images, images_pushFunctionResponse]
    exact mem_append_left _ (mem_append_left _ h)
  | user m => exact happend _
  | assistant m => exact happend _
  | system m => exact h

theorem mem_images_toolResult (hinput : "image" ∈ model.input)
    (h : image ∈ r.images) (contents : List Content) :
    image ∈ images (pushMessage model contents (.toolResult r)) := by
  have himages : imageContent model r = r.images := if_pos hinput
  have hne : r.images.isEmpty = false := List.isEmpty_eq_false_iff.mpr (ne_nil_of_mem h)
  rw [pushMessage, images, flatMap_append, ← images, images_pushFunctionResponse]
  cases hmodel : supportsMultimodalFunctionResponse model.id with
  | true =>
    refine mem_append_left _ (mem_append_right _ ?_)
    simpa [functionResponse, himages, hne, hmodel, Part.images] using h
  | false =>
    simp only [imageContents, himages, hne, hmodel, Bool.not_false, Bool.and_self, if_true,
      flatMap_cons, flatMap_nil, append_nil]
    refine mem_append_right _ (List.mem_flatMap.mpr ⟨.inlineData image, ?_, ?_⟩)
    · exact mem_map_of_mem h
    · exact mem_singleton_self image

theorem mem_images_foldl (hinput : "image" ∈ model.input)
    (hr : .toolResult r ∈ messages) (h : image ∈ r.images)
    (contents : List Content) : image ∈ images (messages.foldl (pushMessage model) contents) := by
  have hkeep : ∀ (messages : List Message) (contents : List Content), image ∈ images contents →
      image ∈ images (messages.foldl (pushMessage model) contents) :=
    fun messages contents hmem => List.foldlRecOn (motive := fun contents => image ∈ images contents)
      messages _ hmem fun _ hmem message _ => mem_images_pushMessage hmem message
  obtain ⟨before, after, rfl⟩ := append_of_mem hr
  rw [foldl_append, foldl_cons]
  exact hkeep _ _ (mem_images_toolResult hinput h _)

end ReflectivePi.Requests.Gemini
