import Mathlib.Init

/-!
# Lib — runs of a labelled step function

A machine that takes one labelled step at a time, where a step may be
impossible. `Run` collects the states of the runs whose steps all meet a
condition; an invariant of such steps holds in all of them (`Run.invariant`).
A concrete run is checked step by step (`Run.of_check`).
-/

namespace ReflectivePi

variable {σ ℓ : Type}

/-- A state reached from an initial one by steps that meet `ok`. -/
inductive Run (init : σ → Prop) (step : σ → ℓ → Option σ)
    (ok : σ → ℓ → Prop) : σ → Prop where
  | init {s : σ} (h : init s) : Run init step ok s
  | step {s s' : σ} {label : ℓ} (h : Run init step ok s) (hok : ok s label)
      (hstep : step s label = some s') : Run init step ok s'

namespace Run

variable {init : σ → Prop} {step : σ → ℓ → Option σ} {ok : σ → ℓ → Prop}

/-- **What holds at the start and survives every step holds throughout.** -/
theorem invariant {p : σ → Prop} (hinit : ∀ s, init s → p s)
    (hstep : ∀ s label s', p s → ok s label → step s label = some s' → p s')
    {s : σ} (h : Run init step ok s) : p s := by
  induction h with
  | init h => exact hinit _ h
  | step _ hok hs ih => exact hstep _ _ _ ih hok hs

/-- The state after a step, the same one if the step is impossible. -/
def after (step : σ → ℓ → Option σ) (s : σ) (label : ℓ) : σ :=
  (step s label).getD s

/-- The state after a list of steps. -/
def afterAll (step : σ → ℓ → Option σ) (s : σ) (labels : List ℓ) : σ :=
  labels.foldl (after step) s

/-- Every step can be made and meets the condition. -/
def check (step : σ → ℓ → Option σ) (ok : σ → ℓ → Prop)
    [∀ s label, Decidable (ok s label)] (s : σ) : List ℓ → Bool
  | [] => true
  | label :: labels =>
    decide (ok s label) && (step s label).isSome && check step ok (after step s label) labels

theorem of_check [∀ s label, Decidable (ok s label)] {labels : List ℓ} {s : σ}
    (h : Run init step ok s) (hcheck : check step ok s labels = true) :
    Run init step ok (afterAll step s labels) := by
  induction labels generalizing s with
  | nil => exact h
  | cons label labels ih =>
    simp only [check, Bool.and_eq_true, decide_eq_true_eq] at hcheck
    obtain ⟨⟨hok, hsome⟩, hrest⟩ := hcheck
    obtain ⟨s', hs⟩ := Option.isSome_iff_exists.mp hsome
    have hafter : after step s label = s' := by rw [after, hs]; rfl
    rw [hafter] at hrest
    show Run init step ok (afterAll step (after step s label) labels)
    rw [hafter]
    exact ih (.step h hok hs) hrest

end Run

/-- Whatever order the machine takes its own steps in, it comes to a state
with the property. -/
inductive Inevitable (step : σ → ℓ → Option σ) (own : ℓ → Bool) (p : σ → Prop) :
    σ → Prop where
  | now {s : σ} (h : p s) : Inevitable step own p s
  | later {s s₁ : σ} {label : ℓ} (hown : own label = true) (hstep : step s label = some s₁)
      (h : ∀ label s', own label = true → step s label = some s' →
        Inevitable step own p s') : Inevitable step own p s

/-- **A measure that own steps lower, and no way to be stuck.** -/
theorem Inevitable.of_measure {step : σ → ℓ → Option σ} {own : ℓ → Bool}
    {p q : σ → Prop} (measure : σ → Nat)
    (hkeep : ∀ s label s', q s → own label = true → step s label = some s' → q s')
    (hlower : ∀ s label s', q s → own label = true → step s label = some s' →
      measure s' < measure s)
    (hgo : ∀ s, q s → ¬ p s → ∃ label, own label = true ∧ (step s label).isSome)
    {s : σ} (h : q s) : Inevitable step own p s := by
  induction hn : measure s using Nat.strongRecOn generalizing s with
  | ind n ih =>
  by_cases hp : p s
  · exact .now hp
  · obtain ⟨label, hown, henabled⟩ := hgo s h hp
    obtain ⟨s₁, hs₁⟩ := Option.isSome_iff_exists.mp henabled
    refine .later hown hs₁ fun label s' hown hs' => ?_
    exact ih (measure s') (hn ▸ hlower s label s' h hown hs') (hkeep s label s' h hown hs') rfl

end ReflectivePi
