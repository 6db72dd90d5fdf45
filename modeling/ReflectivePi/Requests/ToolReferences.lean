import ReflectivePi.Requests.ToolOffers

/-!
# Requests — tool references

The Anthropic request: later changes name the tools that its list declares, so
what the model has at the end is the current names, each looked up in the list.
-/

namespace ReflectivePi.Requests

open List InsertionMap
open Session (Tool)

/-! ## Names -/

variable {name : String} {isOAuthToken : Bool}

/-- The blocks so far, those held back included. -/
def Conversion.blocks (conversion : Conversion) : List SystemBlock :=
  conversion.flush.params.flatMap MessageParam.systemBlocks

/-- What an addition of the name brings. -/
def referenced (tools : List WireTool) (isOAuthToken : Bool) (name : String) : Option WireTool :=
  (tools.find? fun tool => tool.name = wireName isOAuthToken name).map WireTool.loaded

theorem name_referenced {tools : List WireTool} {tool : WireTool}
    (h : referenced tools isOAuthToken name = some tool) :
    tool.name = wireName isOAuthToken name := by
  obtain ⟨found, hfound, rfl⟩ := Option.map_eq_some_iff.mp h
  simpa [WireTool.loaded] using find?_some hfound

/-- The available tools are the current names, looked up. -/
def LooksUp (tools : List WireTool) (isOAuthToken : Bool) (current : InsertionMap String Tool)
    (available : List WireTool) : Prop :=
  ∀ tool, tool ∈ available ↔
    ∃ name, current.has name = true ∧ referenced tools isOAuthToken name = some tool

variable {tool : Tool}

theorem has_set {current : InsertionMap String Tool} :
    (current.set tool.name tool).has name = true ↔ name = tool.name ∨ current.has name = true := by
  rw [InsertionMap.has, get?_set, InsertionMap.has]
  by_cases hname : tool.name = name
  · simp [hname]
  · simp [hname, Ne.symm hname]

theorem has_delete {current : InsertionMap String Tool} {removed : String} :
    (current.delete removed).has name = true ↔ name ≠ removed ∧ current.has name = true := by
  rw [InsertionMap.has, get?_delete, InsertionMap.has]
  by_cases hname : removed = name
  · simp [hname]
  · simp [hname, Ne.symm hname]

section

variable {tools available : List WireTool} {isOAuthToken : Bool}
  {current : InsertionMap String Tool}

theorem LooksUp.remove (h : LooksUp tools isOAuthToken current available) {removed : String}
    (hnames : ∀ name, current.has name = true →
      wireName isOAuthToken name = wireName isOAuthToken removed → name = removed) :
    LooksUp tools isOAuthToken (current.delete removed)
      (applySystemBlock tools available (.toolRemoval (wireName isOAuthToken removed))) := by
  intro tool
  rw [applySystemBlock, mem_filter, h tool]
  constructor
  · rintro ⟨⟨name, hname, hfound⟩, hkept⟩
    refine ⟨name, has_delete.mpr ⟨fun heq => ?_, hname⟩, hfound⟩
    rw [decide_eq_true_eq, name_referenced hfound, heq] at hkept
    exact hkept rfl
  · rintro ⟨name, hname, hfound⟩
    obtain ⟨hne, hhas⟩ := has_delete.mp hname
    refine ⟨⟨name, hhas, hfound⟩, ?_⟩
    rw [decide_eq_true_eq, name_referenced hfound]
    exact fun heq => hne (hnames name hhas heq)

theorem LooksUp.add (h : LooksUp tools isOAuthToken current available) (added : Tool) :
    LooksUp tools isOAuthToken (current.set added.name added)
      (applySystemBlock tools available (.toolAddition (wireName isOAuthToken added.name))) := by
  intro tool
  have hbrought : tool ∈ (tools.find? fun tool =>
      tool.name = wireName isOAuthToken added.name).toList.map WireTool.loaded
        ↔ referenced tools isOAuthToken added.name = some tool := by
    rw [referenced]
    simp
  rw [applySystemBlock, mem_append, h tool, hbrought]
  constructor
  · rintro (⟨name, hname, hfound⟩ | hfound)
    · exact ⟨name, has_set.mpr (.inr hname), hfound⟩
    · exact ⟨added.name, has_set.mpr (.inl rfl), hfound⟩
  · rintro ⟨name, hname, hfound⟩
    rcases has_set.mp hname with rfl | hhas
    · exact .inr hfound
    · exact .inl ⟨name, hhas, hfound⟩

/-- No two of the names go out as one. -/
def WiredApart (isOAuthToken : Bool) (names : List String) : Prop :=
  ∀ name ∈ names, ∀ other ∈ names,
    wireName isOAuthToken name = wireName isOAuthToken other → name = other

/-- The current names are among the names. -/
def Within (names : List String) (current : InsertionMap String Tool) : Prop :=
  ∀ name, current.has name = true → name ∈ names

theorem LooksUp.message {names : List String} {m : SystemMessage}
    (hnames : WiredApart isOAuthToken names)
    (hremoved : ∀ name ∈ m.toolsRemoved, name ∈ names)
    (hadded : ∀ tool ∈ m.toolsAdded, tool.name ∈ names)
    (hwithin : Within names current) (h : LooksUp tools isOAuthToken current available) :
    LooksUp tools isOAuthToken (applyToolChanges current m)
        ((systemBlocks isOAuthToken true m).foldl (applySystemBlock tools) available) ∧
      Within names (applyToolChanges current m) := by
  have htext : (systemBlocks isOAuthToken true m).foldl (applySystemBlock tools) available
      = (m.toolsAdded.map fun tool =>
          SystemBlock.toolAddition (wireName isOAuthToken tool.name)).foldl
          (applySystemBlock tools)
          ((m.toolsRemoved.map fun name =>
            SystemBlock.toolRemoval (wireName isOAuthToken name)).foldl
            (applySystemBlock tools) available) := by
    rw [systemBlocks, if_pos rfl, foldl_append, foldl_append]
    split <;> rfl
  have hremovals (removed : List String) (hin : ∀ name ∈ removed, name ∈ names)
      {current : InsertionMap String Tool} {available : List WireTool}
      (hwithin : Within names current) (h : LooksUp tools isOAuthToken current available) :
      LooksUp tools isOAuthToken (removed.foldl InsertionMap.delete current)
          ((removed.map fun name => SystemBlock.toolRemoval (wireName isOAuthToken name)).foldl
            (applySystemBlock tools) available) ∧
        Within names (removed.foldl InsertionMap.delete current) := by
    induction removed generalizing current available with
    | nil => exact ⟨h, hwithin⟩
    | cons name removed ih =>
      refine ih (fun other hother => hin other (mem_cons_of_mem name hother))
        (fun other hother => hwithin other (has_delete.mp hother).2)
        (h.remove fun other hother =>
          hnames other (hwithin other hother) name (hin name mem_cons_self))
  have hadditions (added : List Tool) (hin : ∀ tool ∈ added, tool.name ∈ names)
      {current : InsertionMap String Tool} {available : List WireTool}
      (hwithin : Within names current) (h : LooksUp tools isOAuthToken current available) :
      LooksUp tools isOAuthToken (setTools current added) ((added.map fun tool =>
            SystemBlock.toolAddition (wireName isOAuthToken tool.name)).foldl
            (applySystemBlock tools) available) ∧
        Within names (setTools current added) := by
    induction added generalizing current available with
    | nil => exact ⟨h, hwithin⟩
    | cons tool added ih =>
      refine ih (fun other hother => hin other (mem_cons_of_mem tool hother))
        (fun other hother => ?_) (h.add tool)
      rcases has_set.mp hother with rfl | hhas
      · exact hin tool mem_cons_self
      · exact hwithin other hhas
  obtain ⟨hless, hwithinLess⟩ := hremovals m.toolsRemoved hremoved hwithin h
  rw [htext]
  exact hadditions m.toolsAdded hadded hwithinLess hless

theorem LooksUp.messages {names : List String} {systems : List SystemMessage}
    (hnames : WiredApart isOAuthToken names)
    (hin : ∀ m ∈ systems, (∀ name ∈ m.toolsRemoved, name ∈ names) ∧
      ∀ tool ∈ m.toolsAdded, tool.name ∈ names)
    (hwithin : Within names current) (h : LooksUp tools isOAuthToken current available) :
    LooksUp tools isOAuthToken (replayTools current systems)
      ((systems.flatMap (systemBlocks isOAuthToken true)).foldl (applySystemBlock tools)
        available) := by
  induction systems generalizing current available with
  | nil => exact h
  | cons m systems ih =>
    obtain ⟨hremoved, hadded⟩ := hin m mem_cons_self
    obtain ⟨hnext, hwithinNext⟩ := LooksUp.message hnames hremoved hadded hwithin h
    rw [flatMap_cons, foldl_append]
    exact ih (fun m' hm' => hin m' (mem_cons_of_mem m hm')) hwithinNext hnext

end

/-! ## What the list declares -/

variable {messages : List Message}

variable {tools : InsertionMap String Tool}

section

variable {isOAuthToken : Bool} {messages : List Message}

end

/-! ## Anthropic -/

variable {normalizeToolCallId : Option Normalizer}

variable {model : Model}

end ReflectivePi.Requests
