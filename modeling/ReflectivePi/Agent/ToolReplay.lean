import ReflectivePi.Lib.InsertionMap
import Mathlib.Data.List.Perm.Basic

/-!
# Agent — ToolReplay

The tools that replaying a transcript comes to, against the tools that the
runtime can execute. Here a tool still has the fields that its declaration
leaves out, and a declaration is compared through its JSON text.
-/

namespace ReflectivePi.Agent.Replay

open List InsertionMap

/-! ## Tools -/

/-- `JSON.stringify` and `JSON.parse` between schemas and texts. -/
structure Json (π τ : Type) where
  stringify : π → τ
  parse : τ → π

def Json.roundTrip {π τ : Type} (json : Json π τ) (parameters : π) : π :=
  json.parse (json.stringify parameters)

/-- What is sent of it is said by its text. -/
inductive ConstrainedSampling where
  /-- The value `false`. -/
  | off
  | jsonSchema (strict : String)
  | grammar (variants : List (String × String))
  deriving DecidableEq

/-- A tool with parameters in `π`, and in `ε` its executable and display-only fields. -/
structure Tool (π ε : Type) where
  name : String
  description : String
  parameters : π
  /-- `none` is `undefined`. -/
  constrainedSampling : Option ConstrainedSampling := none
  fields : Option ε := none
  deriving DecidableEq

variable {π τ ε μ : Type}

/-- Strip executable and display-only fields from a tool. -/
def toToolDeclaration (json : Json π τ) (tool : Tool π ε) : Tool π ε where
  name := tool.name
  description := tool.description
  parameters := json.roundTrip tool.parameters
  constrainedSampling := tool.constrainedSampling

/-- The members of `JSON.stringify` of a declaration, in their order. -/
def stringifyDeclaration (json : Json π τ) (tool : Tool π ε) :
    String × String × τ × Option ConstrainedSampling :=
  (tool.name, tool.description, json.stringify tool.parameters, tool.constrainedSampling)

/-- Whether two tools declare the same interface to the model. -/
def declarationsEqual [DecidableEq τ] (json : Json π τ) (left right : Tool π ε) : Bool :=
  stringifyDeclaration json (toToolDeclaration json left)
    = stringifyDeclaration json (toToolDeclaration json right)

/-! ## Transcripts -/

inductive SystemContent where
  | text (text : String)
  | blocks (blocks : List String)

structure SystemMessage (π ε : Type) where
  content : SystemContent
  sections : Option (List (String × Option String)) := none
  toolsAdded : Option (List (Tool π ε)) := none
  /-- References to tools, each by its name. -/
  toolsRemoved : Option (List String) := none
  timestamp : Nat

/-- `μ` holds the messages of every other role. -/
inductive AgentMessage (π ε μ : Type) where
  | system (message : SystemMessage π ε)
  | other (message : μ)

def AgentMessage.isSystem : AgentMessage π ε μ → Bool
  | .system _ => true
  | .other _ => false

structure AgentContext (π ε μ : Type) where
  messages : List (AgentMessage π ε μ)
  tools : Option (List (Tool π ε)) := none

def toolsByName (tools : List (Tool π ε)) : InsertionMap String (Tool π ε) :=
  tools.foldl (fun map tool => map.set tool.name tool) InsertionMap.empty

/-- The tools after one more message of the transcript. -/
def applyMessage (tools : InsertionMap String (Tool π ε)) :
    AgentMessage π ε μ → InsertionMap String (Tool π ε)
  | .system message =>
    (message.toolsAdded.getD []).foldl (fun map tool => map.set tool.name tool)
      ((message.toolsRemoved.getD []).foldl InsertionMap.delete tools)
  | .other _ => tools

def currentToolMap (messages : List (AgentMessage π ε μ)) : InsertionMap String (Tool π ε) :=
  messages.foldl applyMessage InsertionMap.empty

/-- Resolve the tools available after applying every transcript delta in order. -/
def getCurrentTools (messages : List (AgentMessage π ε μ)) : List (Tool π ε) :=
  (currentToolMap messages).values

/-! ## Changes -/

structure ToolStateChanges (π ε : Type) where
  toolsAdded : List (Tool π ε)
  toolsRemoved : List String

def noChanges : ToolStateChanges π ε := ⟨[], []⟩

/-- A changed definition is a removal followed by an addition. -/
def getToolStateChanges [DecidableEq τ] (json : Json π τ) (previous current : List (Tool π ε)) :
    ToolStateChanges π ε where
  toolsAdded := (current.filter fun tool =>
    ((toolsByName previous).get? tool.name).all fun previousTool =>
      !declarationsEqual json previousTool tool).map (toToolDeclaration json)
  toolsRemoved := (previous.filter fun tool =>
    ((toolsByName current).get? tool.name).all fun currentTool =>
      !declarationsEqual json tool currentTool).map Tool.name

/-- Copy a system message with its tool fields replaced; empty lists omit the field. -/
def withToolChanges (message : SystemMessage π ε) (changes : ToolStateChanges π ε) :
    SystemMessage π ε :=
  { message with
    toolsAdded := if changes.toolsAdded.isEmpty then none else some changes.toolsAdded
    toolsRemoved := if changes.toolsRemoved.isEmpty then none else some changes.toolsRemoved }

/-- The last system message, with what is before and after it. -/
def splitLastSystem : List (AgentMessage π ε μ) →
    Option (List (AgentMessage π ε μ) × SystemMessage π ε × List (AgentMessage π ε μ))
  | [] => none
  | message :: rest =>
    match splitLastSystem rest with
    | some (before, pending, after) => some (message :: before, pending, after)
    | none =>
      match message with
      | .system pending => some ([], pending, rest)
      | .other _ => none

/-- Declare tool loadout changes to the model; `now` is the clock. -/
def declareToolChanges [DecidableEq τ] (json : Json π τ) (context : AgentContext π ε μ)
    (pendingMessages : List (AgentMessage π ε μ)) (now : Nat) : List (AgentMessage π ε μ) :=
  let current := (context.tools.getD []).map (toToolDeclaration json)
  match splitLastSystem pendingMessages with
  | some (before, pending, after) =>
    let baseline := before ++ .system (withToolChanges pending noChanges) :: after
    let changes := getToolStateChanges json (getCurrentTools (context.messages ++ baseline)) current
    if changes.toolsAdded.isEmpty && changes.toolsRemoved.isEmpty
        && (pending.toolsAdded.getD []).isEmpty && (pending.toolsRemoved.getD []).isEmpty then
      pendingMessages
    else before ++ .system (withToolChanges pending changes) :: after
  | none =>
    let changes := getToolStateChanges json
      (getCurrentTools (context.messages ++ pendingMessages)) current
    if changes.toolsAdded.isEmpty && changes.toolsRemoved.isEmpty then pendingMessages
    else
      -- before the first message that is not a system message
      let update := withToolChanges ⟨.text "", none, none, none, now⟩ changes
      pendingMessages.takeWhile AgentMessage.isSystem
        ++ .system update :: pendingMessages.dropWhile AgentMessage.isSystem

/-! ## Lists of tools, by their names -/

def byName (tools : List (Tool π ε)) (name : String) : Option (Tool π ε) :=
  InsertionMap.findEntry name (tools.map fun tool => (tool.name, tool))

/-- One tool for each name. -/
def DistinctNames (tools : List (Tool π ε)) : Prop := (tools.map Tool.name).Nodup

variable {tool : Tool π ε}

theorem mem_of_byName {tools : List (Tool π ε)} {name : String}
    (h : byName tools name = some tool) : tool ∈ tools ∧ tool.name = name := by
  obtain ⟨other, hother, heq⟩ := List.mem_map.mp (mem_of_findEntry h)
  cases heq
  exact ⟨hother, rfl⟩

theorem DistinctNames.byName_eq {tools : List (Tool π ε)} (h : DistinctNames tools)
    (htool : tool ∈ tools) : byName tools tool.name = some tool := by
  refine findEntry_of_mem ?_ (mem_map_of_mem htool)
  rw [map_map]
  exact h

theorem DistinctNames.byName_iff {tools : List (Tool π ε)} (h : DistinctNames tools)
    {name : String} : byName tools name = some tool ↔ tool ∈ tools ∧ tool.name = name :=
  ⟨mem_of_byName, by rintro ⟨hmem, rfl⟩; exact h.byName_eq hmem⟩

theorem DistinctNames.sublist {tools tools' : List (Tool π ε)} (h : DistinctNames tools)
    (hsub : tools'.Sublist tools) : DistinctNames tools' :=
  List.Nodup.sublist (hsub.map Tool.name) h

theorem DistinctNames.byName_filter {tools : List (Tool π ε)} (h : DistinctNames tools)
    (keep : Tool π ε → Bool) (name : String) :
    byName (tools.filter keep) name = (byName tools name).filter keep := by
  ext tool
  rw [(h.sublist filter_sublist).byName_iff, mem_filter, Option.filter_eq_some_iff, h.byName_iff]
  tauto

theorem byName_declarations (json : Json π τ) (tools : List (Tool π ε)) (name : String) :
    byName (tools.map (toToolDeclaration json)) name
      = (byName tools name).map (toToolDeclaration json) := by
  rw [byName, byName, ← findEntry_map_value, map_map, map_map]
  rfl

theorem DistinctNames.declarations {tools : List (Tool π ε)} (h : DistinctNames tools)
    (json : Json π τ) : DistinctNames (tools.map (toToolDeclaration json)) := by
  rw [DistinctNames, map_map]
  exact h

theorem get?_foldl_added {tools : List (Tool π ε)} (h : DistinctNames tools)
    (map : InsertionMap String (Tool π ε)) (name : String) :
    (tools.foldl (fun map tool => map.set tool.name tool) map).get? name
      = (byName tools name).or (map.get? name) := by
  have hpairs : ((tools.map fun tool => (tool.name, tool)).map Prod.fst).Nodup := by
    rw [map_map]
    exact h
  rw [byName, ← get?_foldl_set hpairs, foldl_map]

theorem get?_toolsByName {tools : List (Tool π ε)} (h : DistinctNames tools) (name : String) :
    (toolsByName tools).get? name = byName tools name := by
  rw [toolsByName, get?_foldl_added h, get?_empty, Option.or_none]

theorem get?_foldl_removed (names : List String) (map : InsertionMap String (Tool π ε))
    (name : String) :
    (names.foldl InsertionMap.delete map).get? name
      = if name ∈ names then none else map.get? name := by
  induction names generalizing map with
  | nil => simp
  | cons removed names ih =>
    rw [foldl_cons, ih, get?_delete]
    by_cases hname : name ∈ names
    · simp [hname]
    · by_cases hremoved : removed = name
      · simp [hremoved]
      · simp [hname, hremoved, Ne.symm hremoved]

/-! ## The running tool map -/

/-- Every tool is bound to its own name. -/
def KeyedByName (tools : InsertionMap String (Tool π ε)) : Prop :=
  ∀ name tool, tools.get? name = some tool → tool.name = name

variable {tools : InsertionMap String (Tool π ε)}

theorem KeyedByName.set (h : KeyedByName tools) (tool : Tool π ε) :
    KeyedByName (tools.set tool.name tool) := by
  intro name other hother
  rw [get?_set] at hother
  split at hother
  · rename_i hname
    cases hother
    exact hname
  · exact h name other hother

theorem KeyedByName.delete (h : KeyedByName tools) (removed : String) :
    KeyedByName (tools.delete removed) := by
  intro name other hother
  rw [get?_delete] at hother
  split at hother
  · cases hother
  · exact h name other hother

theorem KeyedByName.applyMessage (h : KeyedByName tools) (message : AgentMessage π ε μ) :
    KeyedByName (applyMessage tools message) := by
  cases message with
  | system message =>
    refine List.foldlRecOn (message.toolsAdded.getD []) _ ?_
      fun tools htools tool _ => htools.set tool
    exact List.foldlRecOn (message.toolsRemoved.getD []) _ h
      fun tools htools removed _ => htools.delete removed
  | other message => exact h

theorem keyedByName_currentToolMap (messages : List (AgentMessage π ε μ)) :
    KeyedByName (currentToolMap messages) :=
  List.foldlRecOn messages _ (fun _ _ h => by cases h)
    fun _ htools message _ => htools.applyMessage message

theorem KeyedByName.names_values (h : KeyedByName tools) :
    tools.values.map Tool.name = tools.keys := by
  rw [InsertionMap.values, map_map]
  refine map_congr_left fun p hp => ?_
  exact h p.1 p.2 (InsertionMap.mem_entries_iff.mp hp)

theorem KeyedByName.distinct (h : KeyedByName tools) : DistinctNames tools.values := by
  rw [DistinctNames, h.names_values]
  exact tools.keys_nodup

theorem KeyedByName.mem_values (h : KeyedByName tools) :
    tool ∈ tools.values ↔ tools.get? tool.name = some tool := by
  rw [← mem_entries_iff, InsertionMap.values, mem_map]
  constructor
  · rintro ⟨⟨name, other⟩, hp, rfl⟩
    rwa [h name other (InsertionMap.mem_entries_iff.mp hp)]
  · exact fun hp => ⟨_, hp, rfl⟩

theorem KeyedByName.byName_values (h : KeyedByName tools) (name : String) :
    byName tools.values name = tools.get? name := by
  ext tool
  constructor
  · intro hfound
    obtain ⟨hmem, rfl⟩ := mem_of_byName hfound
    exact h.mem_values.mp hmem
  · intro hbound
    obtain rfl := h name tool hbound
    exact h.distinct.byName_eq (h.mem_values.mpr hbound)

/-! ## What the changes come to -/

/-- What was read from a text comes back from its own text. -/
def Json.Settled (json : Json π τ) : Prop :=
  ∀ parameters, json.roundTrip (json.roundTrip parameters) = json.roundTrip parameters

variable {json : Json π τ}

theorem toToolDeclaration_settled (hjson : json.Settled) (tool : Tool π ε) :
    toToolDeclaration json (toToolDeclaration json tool) = toToolDeclaration json tool := by
  simp only [toToolDeclaration, hjson tool.parameters]

variable [DecidableEq τ]

theorem declarationsEqual_iff (hjson : json.Settled) {left right : Tool π ε} :
    declarationsEqual json left right
      ↔ toToolDeclaration json left = toToolDeclaration json right := by
  rw [declarationsEqual, decide_eq_true_iff]
  constructor
  · intro htext
    injection htext with hname htext
    injection htext with hdescription htext
    injection htext with hparameters hsampling
    have hround := congrArg json.parse hparameters
    simp only [toToolDeclaration] at hname hdescription hsampling hround
    rw [← Json.roundTrip, ← Json.roundTrip, hjson, hjson] at hround
    simp only [toToolDeclaration, hname, hdescription, hsampling, hround]
  · exact fun h => congrArg (stringifyDeclaration json) h

/-- A tool that the transcript declares as it is stays; another one of its name is replaced. -/
def settle (json : Json π τ) (declared : Option (Tool π ε)) (tool : Tool π ε) : Tool π ε :=
  match declared with
  | none => toToolDeclaration json tool
  | some previous =>
    if declarationsEqual json previous tool then previous else toToolDeclaration json tool

theorem toToolDeclaration_settle (hjson : json.Settled) (declared : Option (Tool π ε))
    (tool : Tool π ε) :
    toToolDeclaration json (settle json declared tool) = toToolDeclaration json tool := by
  unfold settle
  split
  · exact toToolDeclaration_settled hjson tool
  · split
    · rename_i h
      exact (declarationsEqual_iff hjson).mp h
    · exact toToolDeclaration_settled hjson tool

theorem declarationsEqual_settled (hjson : json.Settled) (left right : Tool π ε) :
    declarationsEqual json left (toToolDeclaration json right)
      = declarationsEqual json left right := by
  rw [declarationsEqual, declarationsEqual, toToolDeclaration_settled hjson]

@[simp] theorem toolsAdded_withToolChanges (message : SystemMessage π ε)
    (changes : ToolStateChanges π ε) :
    (withToolChanges message changes).toolsAdded.getD [] = changes.toolsAdded := by
  cases h : changes.toolsAdded <;> simp [withToolChanges, h]

@[simp] theorem toolsRemoved_withToolChanges (message : SystemMessage π ε)
    (changes : ToolStateChanges π ε) :
    (withToolChanges message changes).toolsRemoved.getD [] = changes.toolsRemoved := by
  cases h : changes.toolsRemoved <;> simp [withToolChanges, h]

section OneChange

variable {declared : InsertionMap String (Tool π ε)} {current : List (Tool π ε)}

section

variable (hjson : json.Settled) (hkeyed : KeyedByName declared) (hnames : DistinctNames current)

include hjson hkeyed hnames

theorem byName_toolsAdded
    (name : String) :
    byName (getToolStateChanges json declared.values
        (current.map (toToolDeclaration json))).toolsAdded name
      = ((byName current name).filter fun tool => (declared.get? name).all fun previousTool =>
          !declarationsEqual json previousTool tool).map (toToolDeclaration json) := by
  rw [getToolStateChanges, byName_declarations, (hnames.declarations json).byName_filter,
    byName_declarations]
  cases hfound : byName current name with
  | none => rfl
  | some tool =>
    obtain ⟨-, rfl⟩ := mem_of_byName hfound
    have hname : (toToolDeclaration json tool).name = tool.name := rfl
    simp only [Option.map_some, Option.filter_some, hname,
      get?_toolsByName hkeyed.distinct, hkeyed.byName_values, declarationsEqual_settled hjson]
    split
    · simp only [Option.map_some, toToolDeclaration_settled hjson]
    · rfl

theorem mem_toolsRemoved
    {name : String} {previous : Tool π ε}
    (hprevious : declared.get? name = some previous) :
    name ∈ (getToolStateChanges json declared.values
        (current.map (toToolDeclaration json))).toolsRemoved
      ↔ (byName current name).all fun tool => !declarationsEqual json previous tool := by
  obtain rfl := hkeyed name previous hprevious
  have hlookup : ∀ tool : Tool π ε,
      (((toolsByName (current.map (toToolDeclaration json))).get? tool.name).all
        fun currentTool => !declarationsEqual json tool currentTool)
        = (byName current tool.name).all fun currentTool =>
          !declarationsEqual json tool currentTool := by
    intro tool
    rw [get?_toolsByName (hnames.declarations json), byName_declarations]
    cases byName current tool.name with
    | none => rfl
    | some other => simp only [Option.map_some, Option.all_some, declarationsEqual_settled hjson]
  simp only [getToolStateChanges, hlookup, mem_map, mem_filter]
  constructor
  · rintro ⟨other, ⟨hmem, hkeep⟩, hother⟩
    rw [hkeyed.mem_values, hother, hprevious] at hmem
    obtain rfl := Option.some.inj hmem
    exact hkeep
  · exact fun hkeep => ⟨previous, ⟨hkeyed.mem_values.mpr hprevious, hkeep⟩, rfl⟩

/-- **One declared change**: after it exactly the current tools are declared. -/
theorem get?_applyMessage_changes
    (message : SystemMessage π ε) (name : String) :
    (applyMessage (μ := μ) declared (.system (withToolChanges message
        (getToolStateChanges json declared.values
          (current.map (toToolDeclaration json)))))).get? name
      = (byName current name).map (settle json (declared.get? name)) := by
  have hdistinct : DistinctNames (getToolStateChanges json declared.values
      (current.map (toToolDeclaration json))).toolsAdded :=
    ((hnames.declarations json).sublist filter_sublist).declarations json
  rw [applyMessage, toolsAdded_withToolChanges, toolsRemoved_withToolChanges,
    get?_foldl_added hdistinct, get?_foldl_removed, byName_toolsAdded hjson hkeyed hnames]
  cases hprevious : declared.get? name with
  | none => cases byName current name <;> simp [settle]
  | some previous =>
    simp only [mem_toolsRemoved hjson hkeyed hnames hprevious]
    cases byName current name with
    | none => simp
    | some tool =>
      cases h : declarationsEqual json previous tool <;> simp [settle, h, Option.filter_some]

theorem applyMessage_changes
    (message : SystemMessage π ε) :
    ((applyMessage (μ := μ) declared (.system (withToolChanges message
        (getToolStateChanges json declared.values
          (current.map (toToolDeclaration json)))))).values.map (toToolDeclaration json)).Perm
      (current.map (toToolDeclaration json)) := by
  generalize happlied : applyMessage (μ := μ) declared _ = applied
  have hget : ∀ name, applied.get? name
      = (byName current name).map (settle json (declared.get? name)) :=
    fun name => happlied ▸ get?_applyMessage_changes hjson hkeyed hnames message name
  have hkeyed' : KeyedByName applied := happlied ▸ hkeyed.applyMessage _
  refine (perm_ext_iff_of_nodup (List.Nodup.of_map Tool.name (hkeyed'.distinct.declarations json))
    (List.Nodup.of_map Tool.name (hnames.declarations json))).mpr fun declaration => ?_
  rw [mem_map, mem_map]
  constructor
  · rintro ⟨tool, htool, rfl⟩
    rw [hkeyed'.mem_values, hget] at htool
    obtain ⟨tool', hfound, heq⟩ := Option.map_eq_some_iff.mp htool
    exact ⟨tool', (mem_of_byName hfound).1,
      (toToolDeclaration_settle hjson _ tool').symm.trans (congrArg _ heq)⟩
  · rintro ⟨tool, htool, rfl⟩
    have hbound : applied.get? tool.name = some (settle json (declared.get? tool.name) tool) := by
      rw [hget, hnames.byName_eq htool]
      rfl
    refine ⟨settle json (declared.get? tool.name) tool, ?_, toToolDeclaration_settle hjson _ tool⟩
    rw [hkeyed'.mem_values, hkeyed' _ _ hbound]
    exact hbound

end

end OneChange

/-! ## Declarations over a transcript -/

variable {messages : List (AgentMessage π ε μ)}

theorem currentToolMap_append_of_not_system {rest : List (AgentMessage π ε μ)}
    (h : ∀ message ∈ rest, message.isSystem = false) :
    currentToolMap (messages ++ rest) = currentToolMap messages := by
  rw [currentToolMap, foldl_append, ← currentToolMap]
  refine List.foldlRecOn (motive := fun tools => tools = currentToolMap messages) rest _ rfl fun tools htools message hmessage => ?_
  cases message with
  | system message => cases h _ hmessage
  | other message => exact htools

theorem currentToolMap_middle (messages : List (AgentMessage π ε μ))
    (message : AgentMessage π ε μ) {after : List (AgentMessage π ε μ)}
    (h : ∀ message ∈ after, message.isSystem = false) :
    currentToolMap (messages ++ message :: after)
      = applyMessage (currentToolMap messages) message := by
  rw [append_cons, currentToolMap_append_of_not_system h, currentToolMap, foldl_append]
  rfl

theorem applyMessage_of_nothing (tools : InsertionMap String (Tool π ε))
    {message : SystemMessage π ε} (hadded : message.toolsAdded.getD [] = [])
    (hremoved : message.toolsRemoved.getD [] = []) :
    applyMessage (μ := μ) tools (.system message) = tools := by
  rw [applyMessage, hadded, hremoved]
  rfl

theorem splitLastSystem_spec (messages : List (AgentMessage π ε μ)) :
    match splitLastSystem messages with
    | some (before, pending, after) =>
      messages = before ++ .system pending :: after ∧ ∀ message ∈ after, message.isSystem = false
    | none => ∀ message ∈ messages, message.isSystem = false := by
  induction messages with
  | nil => exact fun _ h => by cases h
  | cons message rest ih =>
    unfold splitLastSystem
    split at ih
    · exact ⟨congrArg (message :: ·) ih.1, ih.2⟩
    · cases message with
      | system pending => exact ⟨rfl, ih⟩
      | other message => exact List.forall_mem_cons.mpr ⟨rfl, ih⟩

/-- What a declaration makes of the pending messages: the tool fields of the last system
message are replaced, or a system message without a text is put first. What is added are
declarations of the tools. -/
inductive Redeclared (json : Json π τ) (tools : List (Tool π ε)) :
    List (AgentMessage π ε μ) → List (AgentMessage π ε μ) → Prop where
  | same (messages : List (AgentMessage π ε μ)) : Redeclared json tools messages messages
  | replaced {before after : List (AgentMessage π ε μ)} {message : SystemMessage π ε}
      {changes : ToolStateChanges π ε}
      (hadded : ∀ tool ∈ changes.toolsAdded, tool ∈ tools.map (toToolDeclaration json))
      (hafter : ∀ message ∈ after, message.isSystem = false) :
      Redeclared json tools (before ++ .system message :: after)
        (before ++ .system (withToolChanges message changes) :: after)
  | inserted {messages : List (AgentMessage π ε μ)} {changes : ToolStateChanges π ε} {now : Nat}
      (hadded : ∀ tool ∈ changes.toolsAdded, tool ∈ tools.map (toToolDeclaration json))
      (hmessages : ∀ message ∈ messages, message.isSystem = false) :
      Redeclared json tools messages
        (.system (withToolChanges ⟨.text "", none, none, none, now⟩ changes) :: messages)

theorem takeWhile_of_not_system (h : ∀ message ∈ messages, message.isSystem = false) :
    messages.takeWhile AgentMessage.isSystem = [] ∧
      messages.dropWhile AgentMessage.isSystem = messages := by
  cases messages with
  | nil => exact ⟨rfl, rfl⟩
  | cons message rest =>
    have hmessage := h message mem_cons_self
    exact ⟨takeWhile_cons_of_neg (by simp [hmessage]), dropWhile_cons_of_neg (by simp [hmessage])⟩

/-- **A declaration step**: the transcript ends with the changes between what it declared
before and the tools, and the pending messages are otherwise kept. -/
theorem declareToolChanges_step (hjson : json.Settled) (context : AgentContext π ε μ)
    (pendingMessages : List (AgentMessage π ε μ)) (now : Nat) :
    (∃ lead message, currentToolMap (context.messages
          ++ declareToolChanges json context pendingMessages now)
        = applyMessage (μ := μ) (currentToolMap (μ := μ) lead) (.system (withToolChanges message
            (getToolStateChanges json (currentToolMap lead).values
              ((context.tools.getD []).map (toToolDeclaration json)))))) ∧
      Redeclared json (context.tools.getD []) pendingMessages
        (declareToolChanges json context pendingMessages now) := by
  have hsplit := splitLastSystem_spec pendingMessages
  have hadded : ∀ previous : List (Tool π ε), ∀ tool ∈ (getToolStateChanges json previous
        ((context.tools.getD []).map (toToolDeclaration json))).toolsAdded,
      tool ∈ (context.tools.getD []).map (toToolDeclaration json) := by
    intro previous tool htool
    obtain ⟨declaration, hdeclaration, rfl⟩ := List.mem_map.mp htool
    have hmem := mem_of_mem_filter hdeclaration
    obtain ⟨tool, -, rfl⟩ := List.mem_map.mp hmem
    rwa [toToolDeclaration_settled hjson]
  rw [declareToolChanges]
  split
  · rename_i before pending after heq
    rw [heq] at hsplit
    obtain ⟨rfl, hafter⟩ := hsplit
    have hbaseline : currentToolMap (context.messages
          ++ (before ++ .system (withToolChanges pending noChanges) :: after))
        = currentToolMap (context.messages ++ before) := by
      rw [← append_assoc, currentToolMap_middle _ _ hafter]
      rfl
    dsimp only
    rw [getCurrentTools, hbaseline]
    split
    · rename_i h
      simp only [Bool.and_eq_true, List.isEmpty_iff] at h
      refine ⟨⟨context.messages ++ before, pending, ?_⟩, .same _⟩
      rw [← append_assoc, currentToolMap_middle _ _ hafter,
        applyMessage_of_nothing _ h.1.2 h.2, applyMessage_of_nothing]
      · rw [toolsAdded_withToolChanges, h.1.1.1]
      · rw [toolsRemoved_withToolChanges, h.1.1.2]
    · refine ⟨⟨context.messages ++ before, pending, ?_⟩, .replaced (hadded _) hafter⟩
      rw [← append_assoc, currentToolMap_middle _ _ hafter]
  · rename_i heq
    rw [heq] at hsplit
    have hmap : currentToolMap (context.messages ++ pendingMessages)
        = currentToolMap context.messages := currentToolMap_append_of_not_system hsplit
    dsimp only
    rw [getCurrentTools, hmap]
    split
    · rename_i h
      simp only [Bool.and_eq_true, List.isEmpty_iff] at h
      refine ⟨⟨context.messages, ⟨.text "", none, none, none, now⟩, ?_⟩, .same _⟩
      rw [hmap, applyMessage_of_nothing]
      · rw [toolsAdded_withToolChanges, h.1]
      · rw [toolsRemoved_withToolChanges, h.2]
    · obtain ⟨htake, hdrop⟩ := takeWhile_of_not_system hsplit
      rw [htake, hdrop]
      refine ⟨⟨context.messages, ⟨.text "", none, none, none, now⟩, ?_⟩,
        .inserted (hadded _) hsplit⟩
      exact currentToolMap_middle _ _ hsplit

theorem getToolStateChanges_eq_nothing (hjson : json.Settled)
    {declared : InsertionMap String (Tool π ε)} (hkeyed : KeyedByName declared)
    {current : List (Tool π ε)} (hnames : DistinctNames current)
    (hsame : (declared.values.map (toToolDeclaration json)).Perm
      (current.map (toToolDeclaration json))) :
    getToolStateChanges json declared.values (current.map (toToolDeclaration json))
      = noChanges := by
  have hdeclared : ∀ tool ∈ declared.values, ∃ other ∈ current, other.name = tool.name ∧
      declarationsEqual json tool other := by
    intro tool htool
    obtain ⟨other, hother, heq⟩ := List.mem_map.mp (hsame.subset (mem_map_of_mem htool))
    exact ⟨other, hother, congrArg (fun tool => tool.name) heq,
      (declarationsEqual_iff hjson).mpr heq.symm⟩
  have hcurrent : ∀ tool ∈ current, ∃ other ∈ declared.values, other.name = tool.name ∧
      declarationsEqual json other tool := by
    intro tool htool
    obtain ⟨other, hother, heq⟩ := List.mem_map.mp (hsame.symm.subset (mem_map_of_mem htool))
    exact ⟨other, hother, congrArg (fun tool => tool.name) heq,
      (declarationsEqual_iff hjson).mpr heq⟩
  have hadded : (getToolStateChanges json declared.values
      (current.map (toToolDeclaration json))).toolsAdded = [] := by
    rw [eq_nil_iff_forall_not_mem]
    intro tool htool
    obtain ⟨declaration, hdeclaration, -⟩ := List.mem_map.mp htool
    obtain ⟨hmem, hkeep⟩ := List.mem_filter.mp hdeclaration
    obtain ⟨tool, htool, rfl⟩ := List.mem_map.mp hmem
    obtain ⟨other, hother, hname, heq⟩ := hcurrent tool htool
    rw [get?_toolsByName hkeyed.distinct,
      show (toToolDeclaration json tool).name = other.name from hname.symm,
      hkeyed.distinct.byName_eq hother, Option.all_some, declarationsEqual_settled hjson,
      heq] at hkeep
    cases hkeep
  have hremoved : (getToolStateChanges json declared.values
      (current.map (toToolDeclaration json))).toolsRemoved = [] := by
    rw [eq_nil_iff_forall_not_mem]
    intro name hname
    obtain ⟨tool, htool, rfl⟩ := List.mem_map.mp hname
    obtain ⟨hmem, hkeep⟩ := List.mem_filter.mp htool
    obtain ⟨other, hother, hothername, heq⟩ := hdeclared tool hmem
    rw [get?_toolsByName (hnames.declarations json), byName_declarations, ← hothername,
      hnames.byName_eq hother, Option.map_some, Option.all_some,
      declarationsEqual_settled hjson, heq] at hkeep
    cases hkeep
  rw [noChanges, ← hadded, ← hremoved]

/-! ## Transcripts that carry declarations -/

/-- Every tool that the messages add is in the form of a declaration. -/
def Declarations (json : Json π τ) (messages : List (AgentMessage π ε μ)) : Prop :=
  ∀ message, .system message ∈ messages →
    ∀ tool ∈ message.toolsAdded.getD [], toToolDeclaration json tool = tool

/-- Every bound tool is in the form of a declaration. -/
def BindsDeclarations (json : Json π τ) (tools : InsertionMap String (Tool π ε)) : Prop :=
  ∀ name tool, tools.get? name = some tool → toToolDeclaration json tool = tool

omit [DecidableEq τ] in
theorem BindsDeclarations.applyMessage (h : BindsDeclarations json tools)
    {message : SystemMessage π ε}
    (hadded : ∀ tool ∈ message.toolsAdded.getD [], toToolDeclaration json tool = tool) :
    BindsDeclarations json (applyMessage (μ := μ) tools (.system message)) := by
  refine List.foldlRecOn (message.toolsAdded.getD []) _ ?_ ?_
  · intro name tool hget
    rw [get?_foldl_removed] at hget
    split at hget
    · cases hget
    · exact h name tool hget
  · intro tools htools added hmem name tool hget
    rw [get?_set] at hget
    split at hget
    · cases hget
      exact hadded added hmem
    · exact htools name tool hget

omit [DecidableEq τ] in
theorem Declarations.currentToolMap
    (h : Declarations json messages) : BindsDeclarations json (currentToolMap messages) := by
  refine List.foldlRecOn messages _ (fun _ _ h => by cases h) fun tools htools message hmem => ?_
  cases message with
  | system message => exact htools.applyMessage (h message hmem)
  | other message => exact htools

omit [DecidableEq τ] in
theorem Redeclared.declarations (hjson : json.Settled) {tools : List (Tool π ε)}
    {pending declared : List (AgentMessage π ε μ)}
    (h : Redeclared json tools pending declared) (hold : Declarations json (messages ++ pending)) :
    Declarations json (messages ++ declared) := by
  have hsettled : ∀ tool ∈ tools.map (toToolDeclaration json),
      toToolDeclaration json tool = tool := by
    intro tool htool
    obtain ⟨tool, -, rfl⟩ := List.mem_map.mp htool
    exact toToolDeclaration_settled hjson tool
  cases h with
  | same => exact hold
  | replaced hadded hafter =>
    intro message hmessage tool htool
    simp only [mem_append, mem_cons] at hmessage
    rcases hmessage with hmessage | hmessage | hmessage | hmessage
    · exact hold message (by simp [hmessage]) tool htool
    · exact hold message (by simp [hmessage]) tool htool
    · cases hmessage
      rw [toolsAdded_withToolChanges] at htool
      exact hsettled tool (hadded tool htool)
    · exact hold message (by simp [hmessage]) tool htool
  | inserted hadded hmessages =>
    intro message hmessage tool htool
    simp only [mem_append, mem_cons] at hmessage
    rcases hmessage with hmessage | hmessage | hmessage
    · exact hold message (by simp [hmessage]) tool htool
    · cases hmessage
      rw [toolsAdded_withToolChanges] at htool
      exact hsettled tool (hadded tool htool)
    · exact hold message (by simp [hmessage]) tool htool

/-- **Tool declarations replay to the executable tools.** After the pending messages are
declared the transcript has one declaration for each tool, of the same name and text, and
no other; where the transcript and the pending messages add declarations only, the tools of
the transcript are the declarations. The pending messages are otherwise kept, and there is
nothing left to declare. -/
theorem declareToolChanges_replays (hjson : json.Settled) (context : AgentContext π ε μ)
    (hnames : DistinctNames (context.tools.getD []))
    (pendingMessages : List (AgentMessage π ε μ)) (now : Nat) :
    let tools := context.tools.getD []
    let declared := declareToolChanges json context pendingMessages now
    let current := getCurrentTools (context.messages ++ declared)
    (current.map (toToolDeclaration json)).Perm (tools.map (toToolDeclaration json)) ∧
      (Declarations json (context.messages ++ pendingMessages) →
        current.Perm (tools.map (toToolDeclaration json))) ∧
      Redeclared json tools pendingMessages declared ∧
      ∀ later, declareToolChanges json ⟨context.messages ++ declared, context.tools⟩ [] later
        = [] := by
  intro tools declared current
  obtain ⟨⟨lead, message, hmap⟩, hkept⟩ := declareToolChanges_step hjson context pendingMessages now
  have hkeyed : KeyedByName (currentToolMap (context.messages ++ declared)) :=
    keyedByName_currentToolMap _
  have hsame : (current.map (toToolDeclaration json)).Perm
      (tools.map (toToolDeclaration json)) := by
    show ((currentToolMap (context.messages ++ declared)).values.map _).Perm _
    rw [hmap]
    exact applyMessage_changes hjson (keyedByName_currentToolMap lead) hnames message
  refine ⟨hsame, fun hold => ?_, hkept, fun later => ?_⟩
  · have hnew : Declarations json (context.messages ++ declared) := hkept.declarations hjson hold
    have hself : current.map (toToolDeclaration json) = current := by
      refine (map_congr_left fun tool htool => ?_).trans (map_id _)
      exact hnew.currentToolMap tool.name tool (hkeyed.mem_values.mp htool)
    rwa [hself] at hsame
  · have hnothing := getToolStateChanges_eq_nothing hjson hkeyed hnames hsame
    simp only [declareToolChanges, splitLastSystem, append_nil]
    rw [getCurrentTools, hnothing]
    rfl

/-- A schema as its members, each of which may be `undefined`. -/
def memberJson : Json (List (String × Option String)) (List (String × String)) where
  stringify parameters := parameters.filterMap fun (key, value) => value.map (key, ·)
  parse text := text.map fun (key, value) => (key, some value)

theorem memberJson_settled : memberJson.Settled := by
  intro parameters
  have hparsed : ∀ text, memberJson.stringify (memberJson.parse text) = text := by
    intro text
    simp [memberJson, filterMap_map]
  rw [Json.roundTrip, Json.roundTrip, hparsed]

def echo : Tool (List (String × Option String)) Unit where
  name := "echo"
  description := "Echo input"
  parameters := [("type", some "object"), ("title", none)]

/-- The transcript declares the tool `echo` as it was built, and an older tool. -/
def echoing : AgentContext (List (String × Option String)) Unit String where
  messages := [.system ⟨.text "prompt", none, some [{ echo with name := "old" }, echo], none, 0⟩,
    .other "question"]
  tools := some [echo]

theorem declareToolChanges_replays_sample :
    let declared := declareToolChanges memberJson echoing [.other "more"] 5
    let current := getCurrentTools (echoing.messages ++ declared)
    (current.map (toToolDeclaration memberJson)).Perm [toToolDeclaration memberJson echo] ∧
      declareToolChanges memberJson ⟨echoing.messages ++ declared, echoing.tools⟩ [] 6 = [] :=
  have h := declareToolChanges_replays memberJson_settled echoing (nodup_singleton _)
    [.other "more"] 5
  ⟨h.1, h.2.2.2 6⟩

/-- A tool that the transcript declares with a member that is `undefined` stays as it is:
what the replay comes to is not the declaration. -/
theorem replay_keeps_undefined :
    memberJson.Settled ∧ DistinctNames (echoing.tools.getD []) ∧
      getCurrentTools (echoing.messages ++ declareToolChanges memberJson echoing [] 5) = [echo] ∧
      toToolDeclaration memberJson echo ≠ echo :=
  ⟨memberJson_settled, nodup_singleton _, by decide, by decide⟩

end ReflectivePi.Agent.Replay
