import Mathlib.Data.Int.Order.Basic

/-!
# Requests — thinking budget

The thinking budget and the output limit of a request to an older Anthropic
model. The budget keeps room for an answer, but a budget of zero becomes one of
1024, whatever the limit is.
-/

namespace ReflectivePi.Requests.ThinkingBudget

def contextSafetyTokens : Int := 4096

def minMaxTokens : Int := 1

def minAnswerTokens : Int := 1024

inductive ThinkingLevel where
  | minimal
  | low
  | medium
  | high
  | xhigh
  | max

structure ThinkingBudgets where
  minimal : Option Int := none
  low : Option Int := none
  medium : Option Int := none
  high : Option Int := none

structure Model where
  contextWindow : Int
  maxTokens : Int

/-- The context window and the estimate of what the context takes. -/
def Model.available (model : Model) (contextTokens : Int) : Int :=
  model.contextWindow - contextTokens - contextSafetyTokens

def clampMaxTokensToContext (model : Model) (contextTokens maxTokens : Int) : Int :=
  if model.contextWindow ≤ 0 then max minMaxTokens maxTokens
  else min maxTokens (max minMaxTokens (model.available contextTokens))

def thinkingBudgetForLevel (reasoningLevel : ThinkingLevel) (customBudgets : ThinkingBudgets) :
    Int :=
  match reasoningLevel with
  | .minimal => customBudgets.minimal.getD 1024
  | .low => customBudgets.low.getD 2048
  | .medium => customBudgets.medium.getD 8192
  | .high | .xhigh | .max => customBudgets.high.getD 16384

def clampThinkingBudgetToAnswerRoom (thinkingBudget ceiling : Int) : Int :=
  min thinkingBudget (max 0 (ceiling - minAnswerTokens))

/-- The limit and the budget. -/
def adjustMaxTokensForThinking (baseMaxTokens modelMaxTokens : Int)
    (reasoningLevel : ThinkingLevel) (customBudgets : ThinkingBudgets) : Int × Int :=
  let thinkingBudget := thinkingBudgetForLevel reasoningLevel customBudgets
  let maxTokens := min (baseMaxTokens + thinkingBudget) modelMaxTokens
  if maxTokens ≤ thinkingBudget then
    (maxTokens, clampThinkingBudgetToAnswerRoom thinkingBudget maxTokens)
  else (maxTokens, thinkingBudget)

structure Params where
  maxTokens : Int
  budgetTokens : Int

/-- `buildParams`: a budget of zero is taken for none. -/
def buildParams (maxTokens thinkingBudgetTokens : Int) : Params where
  maxTokens
  budgetTokens := if thinkingBudgetTokens = 0 then 1024 else thinkingBudgetTokens

/-- `maxTokens` is what the caller asks for. -/
def streamSimple (model : Model) (contextTokens : Int) (maxTokens : Option Int)
    (reasoning : ThinkingLevel) (thinkingBudgets : ThinkingBudgets) : Params :=
  let base := clampMaxTokensToContext model contextTokens (maxTokens.getD model.maxTokens)
  let adjusted := adjustMaxTokensForThinking base model.maxTokens reasoning thinkingBudgets
  let maxTokens := clampMaxTokensToContext model contextTokens adjusted.1
  buildParams maxTokens (min adjusted.2 (max 0 (maxTokens - 1024)))

/-- A window that is not known leaves room for anything. -/
structure Params.Fits (params : Params) (model : Model) (contextTokens : Int) : Prop where
  budget : 1024 ≤ params.budgetTokens
  answer : params.budgetTokens < params.maxTokens
  positive : 1 ≤ params.maxTokens
  output : params.maxTokens ≤ model.maxTokens
  room : 0 < model.contextWindow → params.maxTokens ≤ model.contextWindow - contextTokens

/-- The limit that a budget asks for is there in the model, in the window and in
what the caller asks for together with the budget. -/
def Roomy (model : Model) (contextTokens : Int) (maxTokens : Option Int) (budget : Int) : Prop :=
  let needed := if budget = 0 then 1025 else 2048
  needed ≤ model.maxTokens ∧ (0 < model.contextWindow → needed ≤ model.available contextTokens) ∧
    (needed ≤ maxTokens.getD model.maxTokens + budget ∨
      model.contextWindow ≤ 0 ∧ needed ≤ minMaxTokens + budget)

/-- **The budget and the limit fit** exactly when the budget is zero or at least
1024 and there is room for it and for an answer. -/
theorem streamSimple_fits_iff (model : Model) (contextTokens : Int) (maxTokens : Option Int)
    (reasoning : ThinkingLevel) (thinkingBudgets : ThinkingBudgets) :
    (streamSimple model contextTokens maxTokens reasoning thinkingBudgets).Fits model
        contextTokens ↔
      (thinkingBudgetForLevel reasoning thinkingBudgets = 0 ∨
        1024 ≤ thinkingBudgetForLevel reasoning thinkingBudgets) ∧
      Roomy model contextTokens maxTokens
        (thinkingBudgetForLevel reasoning thinkingBudgets) := by
  have fits_iff (params : Params) : params.Fits model contextTokens ↔
      1024 ≤ params.budgetTokens ∧ params.budgetTokens < params.maxTokens ∧
        params.maxTokens ≤ model.maxTokens ∧
        (0 < model.contextWindow → params.maxTokens ≤ model.contextWindow - contextTokens) :=
    ⟨fun h => ⟨h.budget, h.answer, h.output, h.room⟩,
      fun h => ⟨h.1, h.2.1, by omega, h.2.2.1, h.2.2.2⟩⟩
  simp only [fits_iff, streamSimple, buildParams, adjustMaxTokensForThinking, Roomy]
  simp only [clampMaxTokensToContext, clampThinkingBudgetToAnswerRoom, minMaxTokens,
    minAnswerTokens, Model.available, contextSafetyTokens]
  -- With a window that is not known only the model and the caller limit the output.
  by_cases hwindow : model.contextWindow ≤ 0
  · simp only [if_pos hwindow]
    split_ifs <;> omega
  · simp only [if_neg hwindow]
    split_ifs <;> omega

/-- A full window leaves one token for the output, and the budget is still 1024. -/
theorem streamSimple_not_fits :
    ¬ ∀ (model : Model) (contextTokens : Int) (maxTokens : Option Int)
        (reasoning : ThinkingLevel) (thinkingBudgets : ThinkingBudgets),
      (streamSimple model contextTokens maxTokens reasoning thinkingBudgets).Fits model
        contextTokens := by
  intro h
  have hfits := h ⟨10000, 8192⟩ 10000 none .minimal {}
  exact absurd hfits.answer (by decide)

end ReflectivePi.Requests.ThinkingBudget
