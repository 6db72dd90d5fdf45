import ReflectivePi.Requests.Anthropic
import ReflectivePi.Requests.Bedrock
import ReflectivePi.Requests.Gemini

/-!
# Requests — parallel results

The results of one turn's calls go out together, for each target: what the
providers ask of a request, and when the converters meet it.
-/

namespace ReflectivePi.Requests

open List

/-- What is asked of a request: turns that pair with the transformed messages and, for
a model with image input, every image of a result of the transcript. -/
structure Proper {π ι : Type} (converted : Converted π) (convertImage : ImageContent → Option ι)
    (model : Model) (messages transformed : List Message) (turns : List (WireTurn π ι)) :
    Prop where
  paired : Paired converted transformed turns
  images : "image" ∈ model.input → ∀ r, .toolResult r ∈ messages → ∀ image ∈ r.images,
    ∃ shown, convertImage image = some shown ∧ ∃ turn ∈ turns, shown ∈ turn.images

inductive Target where
  | gemini
  | anthropic (options : Anthropic.Options)
  | bedrock (options : Bedrock.Options)

/-- The transformed messages that a converter goes over. -/
def Target.transformed (model : Model) (messages : List Message) : Target → List Message
  | .gemini => Gemini.transformedMessages model messages
  | .anthropic options => Anthropic.conversationMessages options model messages
  | .bedrock _ => Bedrock.transformedMessages model messages

/-- The converted request, if the conversion does not throw, is a proper one. -/
def Target.RequestProper (model : Model) (messages : List Message) : Target → Prop
  | .gemini =>
    Proper (Gemini.converted model) some model messages (Gemini.transformedMessages model messages)
      ((Gemini.convertMessages model messages).map Gemini.Content.turn)
  | .anthropic options =>
    Proper (Anthropic.converted options) some model messages
      (Anthropic.conversationMessages options model messages)
      ((Anthropic.buildMessages options model messages).map Anthropic.MessageParam.turn)
  | .bedrock options =>
    ∀ request, Bedrock.convertMessages options model messages = some request →
      Proper (Bedrock.converted options) (Bedrock.createImageBlock options) model messages
        (Bedrock.transformedMessages model messages)
        (request.map Bedrock.BedrockMessage.turn)

/-- A result with an image is not directly followed by another result. -/
def ImageLast : Message → Message → Prop
  | .toolResult r, .toolResult _ => r.images = []
  | _, _ => True

/-- Images of results have a place beside other results, or need none. -/
def Target.ImagesFit (model : Model) (messages : List Message) : Target → Prop
  | .gemini =>
    Gemini.supportsMultimodalFunctionResponse model.id ∨ "image" ∉ model.input ∨
      (Gemini.transformedMessages model messages).IsChain ImageLast
  | .anthropic _ => True
  | .bedrock _ => True

theorem apart_iff (model : Model) (messages : List Message) :
    messages.IsChain (Gemini.Apart model)
      ↔ Gemini.supportsMultimodalFunctionResponse model.id ∨ "image" ∉ model.input ∨
        messages.IsChain ImageLast := by
  by_cases hfit : Gemini.supportsMultimodalFunctionResponse model.id ∨ "image" ∉ model.input
  · have hnone : ∀ r, Gemini.imageContents model r = [] := by
      intro r
      rcases hfit with hmodel | hinput
      · simp [Gemini.imageContents, hmodel]
      · simp [Gemini.imageContents, Gemini.imageContent, hinput]
    refine iff_of_true (List.Pairwise.isChain (pairwise_of_forall fun a b => ?_))
      (hfit.elim .inl fun hinput => .inr (.inl hinput))
    unfold Gemini.Apart
    split
    · exact hnone _
    · trivial
  · rw [not_or, not_not, Bool.not_eq_true] at hfit
    have hsame : ∀ r, Gemini.imageContents model r = [] ↔ r.images = [] := by
      intro r
      simp [Gemini.imageContents, Gemini.imageContent, hfit.1, hfit.2]
    have himage : ∀ a b, Gemini.Apart model a b ↔ ImageLast a b := by
      intro a b
      cases a with
      | toolResult r =>
        cases b with
        | toolResult r' => exact hsame r
        | _ => exact Iff.rfl
      | _ => exact Iff.rfl
    rw [show Gemini.Apart model = ImageLast from funext₂ fun a b => propext (himage a b)]
    simp [hfit.1, hfit.2]

theorem gemini_turns {model : Model} {messages : List Message}
    (h : AnsweredDirectly (Gemini.transformedMessages model messages)) :
    (Gemini.convertMessages model messages).map Gemini.Content.turn
      = Gemini.turns model (Gemini.transformedMessages model messages) := by
  rw [Gemini.convertMessages, Gemini.foldl_pushMessage h, nil_append, Gemini.turns]

theorem gemini_images {model : Model} {messages : List Message} (hinput : "image" ∈ model.input)
    {r : ToolResultMessage} (hr : .toolResult r ∈ messages) {image : ImageContent}
    (h : image ∈ r.images) :
    ∃ turn ∈ (Gemini.convertMessages model messages).map Gemini.Content.turn,
      image ∈ turn.images := by
  obtain ⟨r', hr', himages⟩ := mem_transformMessages
    (some fun id _ _ => Gemini.normalizeToolCallId model id) hinput
    (mem_withoutInitialSystemMessage (mem_collapseSystemMessages hr))
  have hmem : image ∈ Gemini.images (Gemini.convertMessages model messages) :=
    Gemini.mem_images_foldl hinput hr' (himages ▸ h) []
  obtain ⟨content, hcontent, himage⟩ := List.mem_flatMap.mp hmem
  exact ⟨content.turn, mem_map_of_mem hcontent, himage⟩

/-- **Parallel results go out together** if and only if their images fit: for a Google API
model that takes images but none inside function responses, no result with an image may be
directly followed by another result. -/
theorem requestProper_iff (target : Target) (model : Model) (messages : List Message)
    (h : AnsweredDirectly (target.transformed model messages)) :
    target.RequestProper model messages ↔ target.ImagesFit model messages := by
  cases target with
  | gemini =>
    have hdirect : AnsweredDirectly (Gemini.transformedMessages model messages) := h
    rw [Target.ImagesFit, ← apart_iff, ← Gemini.paired_iff_apart hdirect, ← gemini_turns hdirect]
    refine ⟨Proper.paired, fun hpaired => ⟨hpaired, fun hinput r hr image himage => ?_⟩⟩
    exact ⟨image, rfl, gemini_images hinput hr himage⟩
  | anthropic options =>
    refine iff_of_true ⟨Anthropic.paired_buildMessages h, fun hinput r hr image himage => ?_⟩
      trivial
    exact ⟨image, rfl, Anthropic.image_buildMessages hinput hr himage⟩
  | bedrock options =>
    refine iff_of_true (fun request hrequest => ?_) trivial
    exact ⟨Bedrock.paired_convertMessages hrequest h, fun hinput r hr image himage =>
      Bedrock.image_convertMessages hrequest hinput hr himage⟩

/-! ## Two results, the first with an image -/

def geminiModel : Model where
  id := "gemini-2"
  api := "google"
  provider := "google"
  input := ["text", "image"]

def twoCalls : AssistantMessage where
  content := some [.toolCall ⟨"a", "shot", "1", none⟩, .toolCall ⟨"b", "read", "2", none⟩]
  api := "google"
  provider := "google"
  model := "gemini-2"
  stopReason := .toolUse

def twoResults (first second : List Block) : List ToolResultMessage :=
  [⟨"a", "shot", some first, false⟩, ⟨"b", "read", some second, false⟩]

/-- Two calls of one message, and their results. -/
def screenshots (first second : List Block) : List Message :=
  [.user ⟨some (.text "look")⟩, .assistant twoCalls] ++ (twoResults first second).map .toolResult

def shown : Block := .image ⟨"data", "image/png"⟩

def said : Block := .text { text := "text" }

theorem answeredDirectly_screenshots (first second : List Block) :
    AnsweredDirectly (screenshots first second) := by
  have hanswers : ((twoResults first second).map ToolResultMessage.toolCallId).Perm
      twoCalls.callIds := List.Perm.refl ["a", "b"]
  have hpair := AnsweredDirectly.exchange (m := twoCalls) (by decide) hanswers .nil
  rw [append_nil] at hpair
  exact .other rfl hpair

theorem requestProper_iff_sample :
    Target.gemini.RequestProper geminiModel (screenshots [said] [shown])
      ↔ Target.gemini.ImagesFit geminiModel (screenshots [said] [shown]) := by
  have htransformed : Gemini.transformedMessages geminiModel (screenshots [said] [shown])
      = screenshots [said] [shown] := by decide
  have hdirect : AnsweredDirectly
      (Target.gemini.transformed geminiModel (screenshots [said] [shown])) := by
    rw [Target.transformed, htransformed]
    exact answeredDirectly_screenshots [said] [shown]
  exact requestProper_iff .gemini geminiModel (screenshots [said] [shown]) hdirect

/-- The second result goes into a turn of its own, after the image of the first. -/
theorem screenshots_not_proper :
    AnsweredDirectly (Target.gemini.transformed geminiModel (screenshots [shown] [said])) ∧
      ¬ Target.gemini.RequestProper geminiModel (screenshots [shown] [said]) := by
  have hdirect := answeredDirectly_screenshots [shown] [said]
  have htransformed : Gemini.transformedMessages geminiModel (screenshots [shown] [said])
      = screenshots [shown] [said] := by decide
  refine ⟨by rw [Target.transformed, htransformed]; exact hdirect, fun h => ?_⟩
  have hpaired := h.paired
  rw [gemini_turns (htransformed ▸ hdirect), htransformed, Gemini.paired_iff_apart hdirect]
    at hpaired
  have hapart : Gemini.imageContents geminiModel ⟨"a", "shot", some [shown], false⟩ = [] :=
    (List.isChain_cons_cons.mp hpaired.tail.tail).1
  revert hapart
  decide

end ReflectivePi.Requests
