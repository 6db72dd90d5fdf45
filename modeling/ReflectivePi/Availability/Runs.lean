import ReflectivePi.Availability.Condition

/-!
# Availability — Runs

Every step that meets the condition keeps every provider pending, right or
covered by a pass. So the snapshot is right once everything has ended.
-/

namespace ReflectivePi.Availability

open List

variable {P A M K : Type} {key : M → K} {s s' : ModelRuntime P A M K key} {q id : P}
  {pass : Pass P A M K key} {i j : Nat} {providers : List P}

/-! ## What a pass finds -/

theorem resultOf_eq {answers : Question → Option (ProviderData A M K key)}
    {data : ProviderData A M K key} (hfresh : ∀ question d, answers question = some d → d = data)
    (h : (resultOf answers).isSome = true) : resultOf answers = some data.answer := by
  obtain ⟨result, hresult⟩ := Option.isSome_iff_exists.mp h
  have heq := hresult
  unfold resultOf at heq
  cases hchecked : answers .available with
  | none => rw [hchecked] at heq; cases heq
  | some checked =>
    cases hmodels : answers .models with
    | none => rw [hchecked, hmodels] at heq; cases heq
    | some models =>
      cases hauth : answers .auth with
      | none => rw [hchecked, hmodels, hauth] at heq; cases heq
      | some auth =>
        cases hstored : answers .stored with
        | none => rw [hchecked, hmodels, hauth, hstored] at heq; cases heq
        | some stored =>
          rw [hchecked, hmodels, hauth, hstored] at heq
          have h₁ := hfresh _ _ hchecked
          have h₂ := hfresh _ _ hmodels
          have h₃ := hfresh _ _ hauth
          have h₄ := hfresh _ _ hstored
          subst h₁ h₂ h₃ h₄
          rw [hresult, ← heq]
          rfl

section Ends

variable (hpass : s.passes[i]? = some pass)
  (hfull : s'.availabilityRefreshSeq = s.availabilityRefreshSeq)
  (hprovider : s'.providerAvailabilitySeq = s.providerAvailabilitySeq)
  (hpasses : s'.passes = s.passes.modify i fun pass => { pass with running := false })
include hfull hprovider hpasses

theorem sequenced_ended (h : Sequenced s) : Sequenced s' := by
  refine h.congr hfull hprovider fun j pass' hj => ?_
  rw [hpasses] at hj
  by_cases heq : i = j
  · subst heq
    rw [getElem?_modify_eq] at hj
    obtain ⟨pass, hold, rfl⟩ := Option.map_eq_some_iff.mp hj
    exact ⟨pass, hold, rfl, rfl⟩
  · rw [getElem?_modify_ne _ _ heq] at hj
    exact ⟨pass', hj, rfl, rfl⟩

theorem counts_ended {pass' : Pass P A M K key} (hj : s'.passes[j]? = some pass')
    (hcounts : s'.Counts pass' q) : s.passes[j]? = some pass' ∧ s.Counts pass' q := by
  unfold ModelRuntime.Counts at hcounts
  rw [hfull, hprovider] at hcounts
  rw [hpasses] at hj
  by_cases heq : i = j
  · subst heq
    rw [getElem?_modify_eq] at hj
    obtain ⟨pass, -, rfl⟩ := Option.map_eq_some_iff.mp hj
    cases hcounts.1
  · rw [getElem?_modify_ne _ _ heq] at hj
    exact ⟨hj, hcounts⟩

theorem allFresh_ended (hworld : s'.world q = s.world q) (h : AllFresh s q) : AllFresh s' q := by
  intro j pass' hj hcounts question data hanswer
  obtain ⟨hold, hcounts⟩ := counts_ended hfull hprovider hpasses hj hcounts
  rw [hworld]
  exact h j pass' hold hcounts question data hanswer

include hpass in
theorem covered_ended (hworld : s'.world q = s.world q) (hnot : ¬ s.Counts pass q)
    (hright : Right s q → Right s' q) (h : Covered s q) : Covered s' q := by
  refine ⟨allFresh_ended hfull hprovider hpasses hworld h.fresh,
    h.reach.imp hright fun ⟨j, other, hj, hcounts⟩ => ⟨j, other, ?_, ?_⟩⟩
  · have hne : i ≠ j := by
      rintro rfl
      rw [hpass, Option.some.injEq] at hj
      exact hnot (hj ▸ hcounts)
    rw [hpasses, getElem?_modify_ne _ _ hne, hj]
  · unfold ModelRuntime.Counts
    rwa [hfull, hprovider]

end Ends

variable [DecidableEq P]

/-- A provider with credentials that the new pass over another one leaves in place. -/
theorem Right.publishProvider [DecidableEq K] {result : Answer A M} (h : Right s q) (hq : q ≠ id) :
    Right { s with
      snapshot :=
        { all := fun q => (s.world q).catalog
          available := fun q => keepAvailable key (s.world q).catalog
            (if q = id then result.available else s.snapshot.available q)
          configuredProviders :=
            Function.update s.snapshot.configuredProviders id result.auth.isSome
          storedProviders := Function.update s.snapshot.storedProviders id result.stored
          auth := Function.update s.snapshot.auth id result.auth } } q := by
  refine ⟨?_, ?_, ?_, ?_⟩
  · exact (Function.update_of_ne hq _ _).trans h.auth
  · exact (Function.update_of_ne hq _ _).trans h.configured
  · exact (Function.update_of_ne hq _ _).trans h.stored
  · show keepAvailable key _ (if q = id then _ else _) = _
    rw [if_neg hq, h.available]
    exact keepAvailable_eq (s.world q).offered_sublist (s.world q).distinct

theorem inv_finish_full [DecidableEq K] (h : Inv providers s) (hpass : s.passes[i]? = some pass)
    (hrunning : pass.running = true) (hscope : pass.scope = .full)
    (hcomplete : ModelRuntime.isComplete providers pass = true) :
    Inv providers (s.finish i pass) := by
  simp only [ModelRuntime.isComplete, hscope, all_eq_true] at hcomplete
  simp only [ModelRuntime.finish, hscope, ModelRuntime.publishFull]
  split
  case isTrue hseq =>
    refine ⟨sequenced_ended (s := s) (i := i) rfl rfl rfl h.sequenced, fun q hq =>
      (h.covered q hq).imp_right ?_⟩
    refine covered_ended hpass rfl rfl rfl rfl ?_ fun hright => hright.congr rfl rfl
    rintro ⟨-, ⟨-, heq⟩ | ⟨hprovider, -⟩⟩
    · exact hseq heq
    · rw [hscope] at hprovider
      cases hprovider
  case isFalse hseq =>
    have hcounts : ∀ q, s.Counts pass q := fun q => ⟨hrunning, .inl ⟨hscope, not_not.mp hseq⟩⟩
    refine ⟨sequenced_ended (s := s) (i := i) rfl rfl rfl h.sequenced, fun q hq =>
      (h.covered q hq).imp_right ?_⟩
    intro hcovered
    have hresult := resultOf_eq (hcovered.fresh i pass hpass (hcounts q)) (hcomplete q hq)
    refine ⟨allFresh_ended (s := s) (i := i) rfl rfl rfl rfl hcovered.fresh, .inl ?_⟩
    constructor <;> simp only [hresult] <;> rfl

theorem inv_finish_provider [DecidableEq K] (h : Inv providers s)
    (hpass : s.passes[i]? = some pass) (hrunning : pass.running = true)
    (hscope : pass.scope = .provider id)
    (hcomplete : ModelRuntime.isComplete providers pass = true) :
    Inv providers (s.finish i pass) := by
  simp only [ModelRuntime.isComplete, hscope] at hcomplete
  simp only [ModelRuntime.finish, hscope, ModelRuntime.publishProvider]
  have hother : ∀ q, q ≠ id ∨ s.providerAvailabilitySeq id ≠ some pass.seq → ¬ s.Counts pass q := by
    rintro q hq ⟨-, ⟨hfull, -⟩ | ⟨hprovider, heq⟩⟩
    · rw [hscope] at hfull
      cases hfull
    · rw [hscope, Scope.provider.injEq] at hprovider
      subst hprovider
      exact hq.elim (fun hne => hne rfl) fun hne => hne heq
  obtain ⟨result, hresult⟩ := Option.isSome_iff_exists.mp hcomplete
  split
  case isTrue hseq =>
    refine ⟨sequenced_ended (s := s) (i := i) rfl rfl rfl h.sequenced, fun q hq =>
      (h.covered q hq).imp_right ?_⟩
    exact covered_ended hpass rfl rfl rfl rfl (hother q (.inr hseq)) fun hright =>
      hright.congr rfl rfl
  case isFalse hseq =>
    rw [hresult]
    refine ⟨sequenced_ended (s := s) (i := i) rfl rfl rfl h.sequenced, fun q hq =>
      (h.covered q hq).imp_right ?_⟩
    intro hcovered
    by_cases heq : q = id
    · subst heq
      have hcounts : s.Counts pass q := ⟨hrunning, .inr ⟨hscope, not_not.mp hseq⟩⟩
      have hvalue := resultOf_eq (hcovered.fresh i pass hpass hcounts) hcomplete
      rw [hresult, Option.some.injEq] at hvalue
      refine ⟨allFresh_ended (s := s) (i := i) rfl rfl rfl rfl hcovered.fresh, .inl ?_⟩
      refine ⟨?_, ?_, ?_, ?_⟩
      · exact (Function.update_self _ _ _).trans (congrArg Answer.auth hvalue)
      · exact (Function.update_self _ _ _).trans (congrArg (·.auth.isSome) hvalue)
      · exact (Function.update_self _ _ _).trans (congrArg Answer.stored hvalue)
      · show keepAvailable key _ (if q = q then _ else _) = _
        rw [if_pos rfl, hvalue]
        exact keepAvailable_eq (s.world q).offered_sublist (s.world q).distinct
    · refine covered_ended hpass rfl rfl rfl rfl (hother q (.inl heq)) (fun hright => ?_) hcovered
      have hended : Right (s.setPass i fun pass => { pass with running := false }) q :=
        hright.congr rfl rfl
      exact hended.publishProvider heq

end ReflectivePi.Availability
