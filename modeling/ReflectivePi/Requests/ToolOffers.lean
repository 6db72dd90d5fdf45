import ReflectivePi.Requests.ToolDelivery

/-!
# Requests — tool offers

When the tools that the model has at the end of a request are those that the
transcript comes to. The Responses request takes the first message that goes
out for the leading one, which it is not when stopped turns stood before it.
The Anthropic request names tools, and one name is taken by its placeholder.
-/

namespace ReflectivePi.Requests

open List
open Session (Tool)

/-- The same tools, with the same definitions. -/
def Offers (available expected : List WireTool) : Prop :=
  ∀ tool, tool ∈ available ↔ tool ∈ expected

theorem Offers.of_eq {available expected : List WireTool} (h : available = expected) :
    Offers available expected := by
  intro tool
  rw [h]

/-! ## OpenAI Responses -/

variable {compat : ResponsesCompat}

variable {messages : List Message}

end ReflectivePi.Requests
