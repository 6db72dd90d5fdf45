import ReflectivePi.Requests.ToolRequests
import ReflectivePi.Requests.Answers

/-!
# Requests — tool delivery

What the model has at the end of a request against the tools that the
transcript comes to.
-/

namespace ReflectivePi.Requests

open List InsertionMap
open Session (Tool)

/-! ## System messages on their way -/

/-- A system message with its content in place. -/
def SystemMessage.filled (m : SystemMessage) : SystemMessage :=
  { m with content := m.content.or (some (.blocks [])) }

/-- The tools one after the other. -/
def setTools (tools : InsertionMap String Tool) (added : List Tool) : InsertionMap String Tool :=
  added.foldl (fun tools tool => tools.set tool.name tool) tools

def replayTools (tools : InsertionMap String Tool) (systems : List SystemMessage) :
    InsertionMap String Tool :=
  systems.foldl applyToolChanges tools

/-- Every tool is under its name. -/
def ByName (tools : InsertionMap String Tool) : Prop :=
  ∀ name tool, tools.get? name = some tool → tool.name = name

theorem ByName.empty : ByName InsertionMap.empty := by
  intro name tool h
  cases h

variable {tools : InsertionMap String Tool}

theorem ByName.set (h : ByName tools) (tool : Tool) : ByName (tools.set tool.name tool) := by
  intro name found hfound
  rw [get?_set] at hfound
  split at hfound
  · rename_i hname
    cases hfound
    exact hname
  · exact h name found hfound

theorem ByName.delete (h : ByName tools) (name : String) : ByName (tools.delete name) := by
  intro name' tool htool
  rw [get?_delete] at htool
  split at htool
  · cases htool
  · exact h name' tool htool

theorem ByName.setTools (h : ByName tools) (added : List Tool) : ByName (setTools tools added) := by
  induction added generalizing tools with
  | nil => exact h
  | cons tool added ih => exact ih (h.set tool)

theorem ByName.replay (h : ByName tools) (systems : List SystemMessage) :
    ByName (replayTools tools systems) := by
  have hdeletes (names : List String) {tools : InsertionMap String Tool} (h : ByName tools) :
      ByName (names.foldl InsertionMap.delete tools) := by
    induction names generalizing tools with
    | nil => exact h
    | cons name names ih => exact ih (h.delete name)
  induction systems generalizing tools with
  | nil => exact h
  | cons m systems ih => exact ih ((hdeletes m.toolsRemoved h).setTools m.toolsAdded)

theorem mem_values (h : ByName tools) {tool : Tool} :
    tool ∈ tools.values ↔ tools.get? tool.name = some tool := by
  rw [InsertionMap.values, mem_map]
  constructor
  · rintro ⟨⟨name, found⟩, hmem, rfl⟩
    have hget := InsertionMap.mem_entries_iff.mp hmem
    have hname : found.name = name := h name found hget
    rw [← hname] at hget
    exact hget
  · exact fun hget => ⟨(tool.name, tool), InsertionMap.mem_entries_iff.mpr hget, rfl⟩

end ReflectivePi.Requests
