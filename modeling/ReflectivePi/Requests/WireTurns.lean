import ReflectivePi.Requests.TranscriptTools
import ReflectivePi.Requests.Turns
import Mathlib.Data.List.Chain

/-!
# Requests — wire turns

A converted request as its turns, and what providers ask of them: the results
of a turn's calls come together in the turn right after it. Each converter
groups the results of the transformed messages in its own way. The texts have
no unpaired surrogates, so `sanitizeSurrogates` leaves them as they are.
-/

namespace ReflectivePi.Requests

open List
open Session (isWhitespace)

def isBlank (text : String) : Bool := text.toList.all isWhitespace

/-- A letter, a digit, `_` or `-`. -/
def isIdChar (c : Char) : Bool := c.isAlphanum || c = '_' || c = '-'

/-- Every other code unit replaced by `_`; a character outside the basic plane is two. -/
def replaceNonIdChars (id : String) : List Char :=
  id.toList.flatMap fun c =>
    if isIdChar c then [c] else if c.toNat < 0x10000 then ['_'] else ['_', '_']

/-- Drop the leading system message. -/
def withoutInitialSystemMessage (messages : List Message) : List Message :=
  if (getInitialSystemMessage messages).isSome then messages.drop 1 else messages

/-! ## Messages that answer each call directly -/

/-- Neither a call nor a result. -/
def Message.isSilent : Message → Bool
  | .assistant m => m.toolCalls.isEmpty
  | .toolResult _ => false
  | _ => true

/-- Every message with calls is directly followed by one result for each of
them, and there are no other results. -/
inductive AnsweredDirectly : List Message → Prop where
  | nil : AnsweredDirectly []
  | other {message : Message} {rest : List Message} (h : message.isSilent)
      (hrest : AnsweredDirectly rest) : AnsweredDirectly (message :: rest)
  | exchange {m : AssistantMessage} {results : List ToolResultMessage} {rest : List Message}
      (hcalls : m.toolCalls ≠ [])
      (hanswers : (results.map ToolResultMessage.toolCallId).Perm m.callIds)
      (hrest : AnsweredDirectly rest) :
      AnsweredDirectly (.assistant m :: (results.map .toolResult ++ rest))

variable {messages : List Message}

theorem AnsweredDirectly.starts (h : AnsweredDirectly messages) :
    ∀ r rest, messages ≠ .toolResult r :: rest := by
  intro r rest heq
  cases h with
  | nil => cases heq
  | other hsilent =>
    cases heq
    cases hsilent
  | exchange => cases heq

variable {results : List ToolResultMessage}

/-- The calls and the results among the blocks of an assistant message, from
those of one block. -/
theorem filter_blocks {β : Type} {blocks : AssistantBlock → List β} {isCall isResult : β → Bool}
    {call : ToolCall → β}
    (h : ∀ block, (blocks block).filter isCall = block.toolCall?.toList.map call ∧
      (blocks block).filter isResult = []) (m : AssistantMessage) :
    ((m.content.getD []).flatMap blocks).filter isCall = m.toolCalls.map call ∧
      ((m.content.getD []).flatMap blocks).filter isResult = [] := by
  constructor
  · rw [filter_flatMap]
    simp only [h]
    rw [AssistantMessage.toolCalls, filterMap_eq_flatMap_toList, map_flatMap]
  · rw [filter_flatMap]
    simp only [h]
    simp

theorem results_ne_nil {m : AssistantMessage} (hcalls : m.toolCalls ≠ [])
    (hanswers : (results.map ToolResultMessage.toolCallId).Perm m.callIds) : results ≠ [] := by
  rintro rfl
  rw [map_nil, nil_perm, AssistantMessage.callIds, map_eq_nil_iff] at hanswers
  exact hcalls hanswers

theorem length_results {m : AssistantMessage}
    (hanswers : (results.map ToolResultMessage.toolCallId).Perm m.callIds) :
    results.length = m.toolCalls.length := by
  have h := hanswers.length_eq
  rwa [length_map, AssistantMessage.callIds, length_map] at h

/-! ## Turns of a request -/

inductive Role where
  | user | assistant | system
  deriving DecidableEq

/-- A turn of a request with the parts `π` that are calls and results, and
the images `ι` in it. -/
structure WireTurn (π ι : Type) where
  role : Role
  calls : List π := []
  results : List π := []
  images : List ι := []

/-- What a converter makes of a call and of a result. -/
structure Converted (π : Type) where
  call : AssistantMessage → ToolCall → π
  result : ToolResultMessage → π

variable {π ι : Type}

def WireTurn.isSilent (turn : WireTurn π ι) : Prop := turn.calls = [] ∧ turn.results = []

/-- Each turn with calls is that of a message, and is directly followed by
a user turn with exactly the results for its calls, in the order of the messages; no other
turn has results. -/
inductive Paired (converted : Converted π) : List Message → List (WireTurn π ι) → Prop where
  | nil : Paired converted [] []
  | message {message : Message} {messages : List Message} {turns : List (WireTurn π ι)}
      (h : message.isSilent) (hrest : Paired converted messages turns) :
      Paired converted (message :: messages) turns
  | turn {turn : WireTurn π ι} {messages : List Message} {turns : List (WireTurn π ι)}
      (h : turn.isSilent) (hrest : Paired converted messages turns) :
      Paired converted messages (turn :: turns)
  | exchange {m : AssistantMessage} {results : List ToolResultMessage} {messages : List Message}
      {assistant user : WireTurn π ι} {turns : List (WireTurn π ι)}
      (hcalls : m.toolCalls ≠ [])
      (hanswers : (results.map ToolResultMessage.toolCallId).Perm m.callIds)
      (hassistant : assistant.role = .assistant ∧
        assistant.calls = m.toolCalls.map (converted.call m) ∧ assistant.results = [])
      (huser : user.role = .user ∧ user.calls = [] ∧ user.results = results.map converted.result)
      (hrest : Paired converted messages turns) :
      Paired converted (.assistant m :: (results.map .toolResult ++ messages))
        (assistant :: user :: turns)

variable {converted : Converted π}

theorem Paired.silent {turns more : List (WireTurn π ι)}
    (hmore : ∀ turn ∈ more, turn.isSilent) (h : Paired converted messages turns) :
    Paired converted messages (more ++ turns) := by
  induction more with
  | nil => exact h
  | cons turn more ih =>
    rw [forall_mem_cons] at hmore
    exact .turn hmore.1 (ih hmore.2)

theorem Paired.followed {turns : List (WireTurn π ι)}
    (h : Paired converted messages turns) {before after : List (WireTurn π ι)}
    {turn next : WireTurn π ι} (heq : turns = before ++ turn :: next :: after)
    (hcalls : turn.calls ≠ []) : next.results.length = turn.calls.length := by
  induction h generalizing before with
  | nil => simp at heq
  | message _ _ ih => exact ih heq
  | turn hsilent _ ih =>
    cases before with
    | nil =>
      injection heq with hturn
      rw [hturn] at hsilent
      exact absurd hsilent.1 hcalls
    | cons first before =>
      injection heq with _ htail
      exact ih htail
  | exchange _ hanswers hassistant huser _ ih =>
    match before with
    | [] =>
      injection heq with hturn htail
      injection htail with hnext _
      rw [← hturn, ← hnext, hassistant.2.1, huser.2.2, length_map, length_map]
      exact length_results hanswers
    | [first] =>
      injection heq with _ htail
      injection htail with hturn _
      rw [hturn] at huser
      exact absurd huser.2.1 hcalls
    | first :: second :: before =>
      injection heq with _ htail
      injection htail with _ htail
      exact ih htail

theorem Paired.append_silent {turns more : List (WireTurn π ι)}
    (hmore : ∀ turn ∈ more, turn.isSilent) (h : Paired converted messages turns) :
    Paired converted messages (turns ++ more) := by
  induction h with
  | nil =>
    have hsilent := (Paired.nil : Paired converted [] []).silent hmore
    rwa [append_nil] at hsilent
  | message hsilent _ ih => exact .message hsilent ih
  | turn hsilent _ ih => exact .turn hsilent ih
  | exchange hcalls hanswers hassistant huser _ ih =>
    exact .exchange hcalls hanswers hassistant huser ih

theorem Paired.inserted {pairs : List (List (WireTurn π ι) × WireTurn π ι)}
    (hsilent : ∀ pair ∈ pairs, ∀ turn ∈ pair.1, turn.isSilent)
    (huser : ∀ pair ∈ pairs, pair.2.role = .user → pair.1 = [])
    (h : Paired converted messages (pairs.map Prod.snd)) :
    Paired converted messages (pairs.flatMap fun pair => pair.1 ++ [pair.2]) := by
  generalize hturns : pairs.map Prod.snd = turns at h
  induction h generalizing pairs with
  | nil =>
    rw [map_eq_nil_iff] at hturns
    subst hturns
    exact .nil
  | message hmessage _ ih => exact .message hmessage (ih hsilent huser hturns)
  | turn hturn _ ih =>
    obtain ⟨pair, pairs, rfl, rfl, rfl⟩ := List.map_eq_cons_iff.mp hturns
    rw [forall_mem_cons] at hsilent huser
    rw [flatMap_cons, append_assoc]
    exact .silent hsilent.1 (.turn hturn (ih hsilent.2 huser.2 rfl))
  | exchange hcalls hanswers hassistant hresults _ ih =>
    obtain ⟨first, rest, rfl, rfl, hrest⟩ := List.map_eq_cons_iff.mp hturns
    obtain ⟨second, pairs, rfl, rfl, rfl⟩ := List.map_eq_cons_iff.mp hrest
    rw [forall_mem_cons, forall_mem_cons] at hsilent huser
    rw [flatMap_cons, flatMap_cons, huser.2.1 hresults.1, append_assoc]
    exact .silent hsilent.1
      (.exchange hcalls hanswers hassistant hresults (ih hsilent.2.2 huser.2.2 rfl))

/-! ## Consecutive results -/

/-- A message, or the results that come one after another. -/
inductive Chunk where
  | message (message : Message)
  | results (results : List ToolResultMessage)

/-- The messages as the converters go over them that look ahead for
consecutive results. -/
def chunks : List Message → List Chunk
  | [] => []
  | .toolResult r :: rest =>
    match chunks rest with
    | .results results :: more => .results (r :: results) :: more
    | more => .results [r] :: more
  | message :: rest => .message message :: chunks rest

theorem chunks_starts (h : ∀ r rest, messages ≠ .toolResult r :: rest)
    (results : List ToolResultMessage) (more : List Chunk) :
    chunks messages ≠ .results results :: more := by
  cases messages with
  | nil => exact nofun
  | cons message rest =>
    cases message with
    | toolResult r => exact absurd rfl (h r rest)
    | _ => exact nofun

theorem chunks_results {rest : List Message} (hresults : results ≠ [])
    (h : ∀ r rest', rest ≠ .toolResult r :: rest') :
    chunks (results.map .toolResult ++ rest) = .results results :: chunks rest := by
  induction results with
  | nil => exact absurd rfl hresults
  | cons r results ih =>
    rw [map_cons, cons_append, chunks]
    cases results with
    | nil =>
      rw [map_nil, nil_append]
      split
      · rename_i heq
        exact absurd heq (chunks_starts h _ _)
      · rfl
    | cons r' results =>
      rw [ih (cons_ne_nil _ _)]

theorem chunks_message {message : Message} (h : message.isSilent ∨ ∃ m, message = .assistant m)
    (rest : List Message) : chunks (message :: rest) = .message message :: chunks rest := by
  cases message with
  | toolResult r =>
    rcases h with h | ⟨m, h⟩
    · cases h
    · cases h
  | _ => rfl

variable {r : ToolResultMessage}

theorem mem_chunks (h : .toolResult r ∈ messages) :
    ∃ results, .results results ∈ chunks messages ∧ r ∈ results := by
  induction messages with
  | nil => cases h
  | cons message rest ih =>
    cases message with
    | toolResult r' =>
      rw [chunks]
      rcases List.mem_cons.mp h with heq | h
      · cases heq
        split
        · simp
        simp
      · obtain ⟨results, hmem, hr⟩ := ih h
        split
        · rename_i first more heq
          rw [heq] at hmem
          rcases List.mem_cons.mp hmem with hfirst | hmem
          · cases hfirst
            exact ⟨_, mem_cons_self, mem_cons_of_mem _ hr⟩
          · exact ⟨results, mem_cons_of_mem _ hmem, hr⟩
        · exact ⟨results, mem_cons_of_mem _ hmem, hr⟩
    | _ =>
      obtain ⟨results, hmem, hr⟩ := ih ((List.mem_cons.mp h).resolve_left nofun)
      exact ⟨results, mem_cons_of_mem _ hmem, hr⟩

/-! ## Results that a transformed transcript keeps -/

def ToolResultMessage.images (r : ToolResultMessage) : List ImageContent :=
  (r.content.getD []).filterMap fun block =>
    match block with
    | .image image => some image
    | .text _ => none

theorem mem_emitted {pending : List ToolCall} {seen : List String}
    {held : List SystemMessage} (h : .toolResult r ∈ messages) :
    .toolResult r ∈ emitted pending seen held messages := by
  induction messages generalizing pending seen held with
  | nil => cases h
  | cons message rest ih =>
    cases message with
    | toolResult r' =>
      rcases List.mem_cons.mp h with heq | h
      · cases heq
        exact mem_cons_self
      · exact mem_cons_of_mem _ (ih h)
    | system m =>
      have hrest := (List.mem_cons.mp h).resolve_left (fun heq => by cases heq)
      rw [emitted]
      split
      · exact mem_cons_of_mem _ (ih hrest)
      · exact ih hrest
    | user m =>
      have hrest := (List.mem_cons.mp h).resolve_left (fun heq => by cases heq)
      exact mem_append_right _ (mem_cons_of_mem _ (ih hrest))
    | assistant m =>
      have hrest := (List.mem_cons.mp h).resolve_left (fun heq => by cases heq)
      rw [emitted]
      refine mem_append_right _ ?_
      split
      · exact ih hrest
      · exact mem_cons_of_mem _ (ih hrest)

theorem mem_firstPass (model : Model) (normalizeToolCallId : Option Normalizer)
    (map : InsertionMap String String) (h : .toolResult r ∈ messages) :
    ∃ r', .toolResult r' ∈ firstPass model normalizeToolCallId map messages ∧
      r'.content = r.content := by
  induction messages generalizing map with
  | nil => cases h
  | cons message rest ih =>
    cases message with
    | toolResult r' =>
      rcases List.mem_cons.mp h with heq | h
      · cases heq
        refine ⟨renameResult map r, mem_cons_self, ?_⟩
        unfold renameResult
        split
        · split <;> rfl
        · rfl
      · obtain ⟨r', hmem, heq⟩ := ih map h
        exact ⟨r', mem_cons_of_mem _ hmem, heq⟩
    | assistant m =>
      have hrest := (List.mem_cons.mp h).resolve_left (fun heq => by cases heq)
      obtain ⟨r', hmem, heq⟩ := ih (transformBlocks model normalizeToolCallId m map
        (m.content.getD [])).1 hrest
      exact ⟨r', mem_cons_of_mem _ hmem, heq⟩
    | _ =>
      have hrest := (List.mem_cons.mp h).resolve_left (fun heq => by cases heq)
      obtain ⟨r', hmem, heq⟩ := ih map hrest
      exact ⟨r', mem_cons_of_mem _ hmem, heq⟩

theorem mem_transformMessages {model : Model} (normalizeToolCallId : Option Normalizer)
    (hinput : "image" ∈ model.input) (h : .toolResult r ∈ messages) :
    ∃ r', .toolResult r' ∈ transformMessages messages model normalizeToolCallId ∧
      r'.images = r.images := by
  have hmem := mem_map_of_mem (f := imageAware model) h
  have himage : imageAware model (.toolResult r)
      = .toolResult { r with content := r.content.or (some []) } := by
    simp [imageAware, downgradeUnsupportedImages, hinput, normalizeContent]
  rw [himage] at hmem
  obtain ⟨r', hr', hcontent⟩ := mem_firstPass model normalizeToolCallId InsertionMap.empty hmem
  refine ⟨r', ?_, ?_⟩
  · rw [transformMessages, secondPass_eq]
    exact mem_emitted hr'
  · rw [ToolResultMessage.images, ToolResultMessage.images, hcontent]
    cases r.content <;> rfl

theorem mem_withoutInitialSystemMessage (h : .toolResult r ∈ messages) :
    .toolResult r ∈ withoutInitialSystemMessage messages := by
  cases messages with
  | nil => cases h
  | cons message rest =>
    cases message with
    | system m =>
      exact (List.mem_cons.mp h).resolve_left nofun
    | _ => exact h

theorem mem_collapseSystemMessages (h : .toolResult r ∈ messages) :
    .toolResult r ∈ collapseSystemMessages messages :=
  mem_append_right _ (List.mem_filter.mpr ⟨h, rfl⟩)

theorem transformMessages_system (model : Model) (normalizeToolCallId : Option Normalizer)
    (h : (getInitialSystemMessage messages).isSome) :
    ∃ m rest, transformMessages messages model normalizeToolCallId = .system m :: rest := by
  cases messages with
  | nil => cases h
  | cons message rest =>
    cases message with
    | system m =>
      have himage : imageAware model (.system m)
          = .system { m with content := m.content.or (some (.blocks [])) } := by
        unfold imageAware downgradeUnsupportedImages normalizeContent
        split <;> rfl
      refine ⟨{ m with content := m.content.or (some (.blocks [])) },
        emitted [] [] [] (firstPass model normalizeToolCallId InsertionMap.empty
          (rest.map (imageAware model))), ?_⟩
      rw [transformMessages, secondPass_eq, map_cons, himage]
      rfl
    | _ => cases h

end ReflectivePi.Requests
