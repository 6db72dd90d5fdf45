import Mathlib.Data.List.Dedup
import ReflectivePi.Availability.Runs
import ReflectivePi.Lib.LabelledRun

/-!
# Availability — Settled

The steps of the operations, and every run: once every operation and every pass
has ended, the snapshot is what a pass started now would compute.
-/

namespace ReflectivePi.Availability

open List

variable {P A M K : Type} {key : M → K} {s s' : ModelRuntime P A M K key} {q p : P}
  {pass : Pass P A M K key} {i j : Nat} {providers : List P}
  [DecidableEq P] [DecidableEq K] [DecidableEq M]

variable {op : Op P}

omit [DecidableEq K] [DecidableEq M] in
theorem phase_of_mayBegin (hop : s.ops[i]? = some op) (h : s.mayBegin i = true) :
    op.phase = .queued := by
  unfold ModelRuntime.mayBegin at h
  rw [hop] at h
  obtain ⟨kind, phase⟩ := op
  cases phase with
  | queued => rfl
  | _ => cases kind <;> cases h

/-- The providers that are composed anew, and the others as they are. -/
def ModelRuntime.recompose (s : ModelRuntime P A M K key) (kind : Kind P)
    (recomposed : P → ProviderData A M K key) : ModelRuntime P A M K key :=
  { s with world := fun q => if kind.covers q then recomposed q else s.world q }

variable {recomposed : P → ProviderData A M K key}

/-- A provider that is not refreshed stays covered: a pass will correct it, or its
filter leaves nothing out. -/
theorem covered_begin {kind : Kind P} (hcovers : kind.covers q = false) (h : Covered s q)
    (hmeets : (s.ownPass q = true ∨ s.fullPass = true) ∨ (s.world q).isPlain = true) :
    Covered ((s.recompose kind recomposed).updateModelSnapshot.setPhase i .working) q := by
  have hworld : (s.recompose kind recomposed).world q = s.world q := by
    simp [ModelRuntime.recompose, hcovers]
  have halike : Alike s ((s.recompose kind recomposed).updateModelSnapshot.setPhase i .working) q :=
    ⟨rfl, rfl, rfl, hworld⟩
  refine ⟨halike.allFresh h.fresh, ?_⟩
  rcases hmeets with hpass | hplain
  · refine .inr (halike.hasPass ?_)
    rcases hpass with hown | hfull
    · obtain ⟨j, pass, hj, hcounts, -⟩ := ownPass_iff.mp hown
      exact ⟨j, pass, hj, hcounts⟩
    · obtain ⟨j, pass, hj, hrunning, hcounts⟩ := fullPass_iff.mp hfull
      exact ⟨j, pass, hj, hrunning, .inl hcounts⟩
  · refine h.reach.imp (fun hright => ?_) halike.hasPass
    have hsame : Right (s.recompose kind recomposed) q := hright.congr rfl hworld
    have hupdated := hsame.updateModelSnapshot (by rwa [hworld])
    exact hupdated.congr rfl rfl

theorem inv_begin_refresh (h : Inv providers s) (hop : s.ops[i]? = some op)
    (hphase : op.phase = .queued)
    (hmeets : ∀ q ∈ providers, op.kind.covers q = true ∨ s.isPending q = true ∨
      (s.ownPass q = true ∨ s.fullPass = true) ∨ (s.world q).isPlain = true) :
    Inv providers ((s.recompose op.kind recomposed).updateModelSnapshot.setPhase i .working) := by
  refine ⟨h.sequenced.congr rfl rfl fun j pass hj => ⟨pass, hj, rfl, rfl⟩, fun q hq => ?_⟩
  have hstill : s.isPending q = true → ((s.recompose op.kind recomposed).updateModelSnapshot.setPhase
      i .working).isPending q = true := fun hpending => isPending_working (i := i) rfl hpending
  cases hcovers : op.kind.covers q with
  | true => exact .inl (hstill (isPending_of_op hop (by simp [hphase]) hcovers))
  | false =>
    rcases hmeets q hq with hcov | hpending | hmeets
    · rw [hcovers] at hcov
      cases hcov
    · exact .inl (hstill hpending)
    · exact (h.covered q hq).imp hstill fun hcovered => covered_begin hcovers hcovered hmeets

theorem inv_begin (h : Inv providers s) (hop : s.ops[i]? = some op) (hphase : op.phase = .queued)
    (hmeets : meets providers s (.begin i recomposed) = true) :
    Inv providers (s.begin i op.kind recomposed) := by
  obtain ⟨kind, phase⟩ := op
  simp only [meets, hop] at hmeets
  cases kind with
  | credential id =>
    refine ⟨h.sequenced.congr rfl rfl fun j pass hj => ⟨pass, hj, rfl, rfl⟩, fun q hq => ?_⟩
    exact (h.covered q hq).imp (fun hpending => isPending_working (i := i) rfl hpending)
      fun hcovered => hcovered.congr ⟨rfl, rfl, rfl, rfl⟩ rfl
  | refresh => exact inv_begin_refresh h hop hphase fun q hq => .inl rfl
  | refreshProviders ids =>
    refine inv_begin_refresh h hop hphase fun q hq => ?_
    have hq := List.all_eq_true.mp hmeets q hq
    simp only [Bool.or_eq_true] at hq
    simpa only [Kind.covers, or_assoc] using hq

theorem ownCovered_updated (h : Covered s q)
    (hmeets : s.ownPass q = true ∨ (s.world q).isPlain = true ∧ s.fullPass = false) :
    OwnCovered (s.setPhase i .published).updateModelSnapshot q := by
  have halike : Alike s (s.setPhase i .published).updateModelSnapshot q := ⟨rfl, rfl, rfl, rfl⟩
  refine ⟨halike.allFresh h.fresh, ?_⟩
  rcases hmeets with hown | ⟨hplain, hfull⟩
  · exact .inr (halike.hasOwn (ownPass_iff.mp hown))
  · refine h.reach.imp (fun hright => ?_) fun hpass => halike.hasOwn ?_
    · have hsame : Right (s.setPhase i .published) q := hright.congr rfl rfl
      exact hsame.updateModelSnapshot hplain
    · refine hpass.own_or_full.resolve_right fun hcounts => ?_
      rw [fullPass_iff.mpr hcounts] at hfull
      cases hfull

omit [DecidableEq K] [DecidableEq M] in
theorem ops_foldl (ids : List P) :
    (ids.foldl ModelRuntime.refreshProviderAvailability s).ops = s.ops := by
  induction ids generalizing s with
  | nil => rfl
  | cons id ids ih => exact ih

/-- Providers that are covered by the operation get a pass of their own. -/
theorem inv_publish_own (ids : List P) (h : Inv providers s) (hop : s.ops[i]? = some op)
    (hids : ∀ q, op.kind.covers q = true ↔ q ∈ ids)
    (hmeets : ∀ q ∈ providers, op.kind.covers q = true ∨ s.isPending q = true ∨
      s.ownPass q = true ∨ (s.world q).isPlain = true ∧ s.fullPass = false) :
    Inv providers (ids.foldl ModelRuntime.refreshProviderAvailability
      (s.setPhase i .published).updateModelSnapshot) := by
  have hseq : Sequenced (s.setPhase i .published).updateModelSnapshot :=
    h.sequenced.congr rfl rfl fun j pass hj => ⟨pass, hj, rfl, rfl⟩
  obtain ⟨hsequenced, hown⟩ := ownCovered_foldl ids hseq
  refine ⟨hsequenced, fun q hq => ?_⟩
  have hpublished : op.kind.covers q = false → s.isPending q = true →
      (ids.foldl ModelRuntime.refreshProviderAvailability
        (s.setPhase i .published).updateModelSnapshot).isPending q = true :=
    fun hcovers hpending => isPending_published hop hcovers (ops_foldl ids) hpending
  cases hcovers : op.kind.covers q with
  | true => exact .inr (hown q (.inl ((hids q).mp hcovers))).covered
  | false =>
    rcases hmeets q hq with hcov | hpending | hmeets
    · rw [hcovers] at hcov
      cases hcov
    · exact .inl (hpublished hcovers hpending)
    · refine (h.covered q hq).imp (hpublished hcovers) fun hcovered => ?_
      exact (hown q (.inr (ownCovered_updated hcovered hmeets))).covered

theorem inv_publish (h : Inv providers s) (hop : s.ops[i]? = some op)
    (hmeets : meets providers s (.publish i) = true) : Inv providers (s.publish i op.kind) := by
  obtain ⟨kind, phase⟩ := op
  simp only [meets, hop] at hmeets
  have hothers : (providers.all fun q => kind.covers q || s.isPending q || s.ownPass q ||
      (s.world q).isPlain && !s.fullPass) = true → ∀ q ∈ providers, kind.covers q = true ∨
        s.isPending q = true ∨ s.ownPass q = true ∨
          (s.world q).isPlain = true ∧ s.fullPass = false := by
    intro hall q hq
    have hq := List.all_eq_true.mp hall q hq
    simpa only [Bool.or_eq_true, Bool.and_eq_true, Bool.not_eq_true', or_assoc] using hq
  cases kind with
  | credential id =>
    refine inv_publish_own [id] h hop (fun q => ?_) (hothers hmeets)
    simp [Kind.covers]
  | refresh =>
    have hseq : Sequenced (s.setPhase i .published).updateModelSnapshot :=
      h.sequenced.congr rfl rfl fun j pass hj => ⟨pass, hj, rfl, rfl⟩
    exact ⟨sequenced_queue hseq, fun q _ => .inr (covered_queue hseq q)⟩
  | refreshProviders ids =>
    refine inv_publish_own ids.eraseDups h hop (fun q => ?_) (hothers hmeets)
    simp [Kind.covers]

omit [DecidableEq K] [DecidableEq M] in
theorem inv_change {data : ProviderData A M K key} (h : Inv providers s)
    (hop : s.ops[i]? = some op) (hphase : op.phase = .working) (hcovers : op.kind.covers p = true) :
    Inv providers { s with world := Function.update s.world p data } := by
  refine ⟨h.sequenced.congr rfl rfl fun j pass hj => ⟨pass, hj, rfl, rfl⟩, fun q hq => ?_⟩
  by_cases heq : q = p
  · subst heq
    exact .inl (isPending_of_op hop (by simp [hphase]) hcovers)
  · refine (h.covered q hq).imp_right fun hcovered => hcovered.congr ?_ rfl
    exact ⟨rfl, rfl, rfl, Function.update_of_ne heq _ _⟩

omit [DecidableEq K] [DecidableEq M] in
theorem inv_read (h : Inv providers s) (question : Question) :
    Inv providers (s.setPass i (ModelRuntime.record p question (s.world p))) := by
  have hpasses : ∀ (j : Nat) pass',
      (s.setPass i (ModelRuntime.record p question (s.world p))).passes[j]? = some pass' →
        ∃ pass, s.passes[j]? = some pass ∧ pass'.scope = pass.scope ∧ pass'.seq = pass.seq ∧
          pass'.running = pass.running ∧ (pass' = pass ∨
            pass' = ModelRuntime.record p question (s.world p) pass) := by
    intro j pass' hj
    have hj : (s.passes.modify i _)[j]? = some pass' := hj
    by_cases heq : i = j
    · subst heq
      rw [getElem?_modify_eq] at hj
      obtain ⟨pass, hold, rfl⟩ := Option.map_eq_some_iff.mp hj
      exact ⟨pass, hold, rfl, rfl, rfl, .inr rfl⟩
    · rw [getElem?_modify_ne _ _ heq] at hj
      exact ⟨pass', hj, rfl, rfl, rfl, .inl rfl⟩
  refine ⟨h.sequenced.congr rfl rfl fun j pass' hj => ?_, fun q hq =>
    (h.covered q hq).imp_right fun hcovered => ⟨?_, ?_⟩⟩
  · obtain ⟨pass, hold, hscope, hseq, -⟩ := hpasses j pass' hj
    exact ⟨pass, hold, hscope, hseq⟩
  · intro j pass' hj hcounts other data hanswer
    obtain ⟨pass, hold, hscope, hseq, hrunning, hcase⟩ := hpasses j pass' hj
    have hcounts : s.Counts pass q := by
      have hcounts' := hcounts
      unfold ModelRuntime.Counts at hcounts'
      rwa [hscope, hseq, hrunning] at hcounts'
    rcases hcase with rfl | rfl
    · exact hcovered.fresh j pass' hold hcounts other data hanswer
    · -- the new answer is that of the moment, the others are as they were
      simp only [ModelRuntime.record, Function.update_apply] at hanswer
      split at hanswer
      case isTrue heq =>
        subst heq
        rw [Function.update_apply] at hanswer
        split at hanswer
        case isTrue => exact (Option.some.inj hanswer).symm
        case isFalse => exact hcovered.fresh j pass hold hcounts other data hanswer
      case isFalse => exact hcovered.fresh j pass hold hcounts other data hanswer
  · refine hcovered.reach.imp (fun hright => hright.congr rfl rfl) ?_
    rintro ⟨j, pass, hj, hcounts⟩
    by_cases heq : i = j
    · subst heq
      refine ⟨i, ModelRuntime.record p question (s.world p) pass, ?_, hcounts⟩
      refine (getElem?_modify_eq _ _ _).trans ?_
      rw [hj]
      rfl
    · exact ⟨j, pass, (getElem?_modify_ne _ _ heq).trans hj, hcounts⟩

/-- **One step keeps the invariant.** -/
theorem inv_step {label : Label P A M K key} (h : Inv providers s)
    (hmeets : meets providers s label = true) (hstep : step providers s label = some s') :
    Inv providers s' := by
  cases label with
  | call kind =>
    obtain rfl := Option.some.inj hstep
    refine ⟨h.sequenced.congr rfl rfl fun j pass hj => ⟨pass, hj, rfl, rfl⟩, fun q hq => ?_⟩
    exact (h.covered q hq).imp (isPending_append rfl) fun hcovered =>
      hcovered.congr ⟨rfl, rfl, rfl, rfl⟩ rfl
  | getAvailable =>
    obtain rfl := Option.some.inj hstep
    exact ⟨sequenced_queue h.sequenced, fun q _ => .inr (covered_queue h.sequenced q)⟩
  | begin i recomposed =>
    simp only [step] at hstep
    cases hop : s.ops[i]? with
    | none => rw [hop] at hstep; cases hstep
    | some op =>
      simp only [hop, Option.ite_none_right_eq_some, Option.some.injEq] at hstep
      obtain ⟨hmay, rfl⟩ := hstep
      exact inv_begin h hop (phase_of_mayBegin hop hmay) hmeets
  | change i q data =>
    simp only [step] at hstep
    cases hop : s.ops[i]? with
    | none => rw [hop] at hstep; cases hstep
    | some op =>
      simp only [hop, Option.ite_none_right_eq_some, Option.some.injEq, Bool.and_eq_true,
        decide_eq_true_eq] at hstep
      obtain ⟨⟨hphase, hcovers⟩, rfl⟩ := hstep
      exact inv_change h hop hphase hcovers
  | publish i =>
    simp only [step] at hstep
    cases hop : s.ops[i]? with
    | none => rw [hop] at hstep; cases hstep
    | some op =>
      simp only [hop, Option.ite_none_right_eq_some, Option.some.injEq] at hstep
      obtain ⟨-, rfl⟩ := hstep
      exact inv_publish h hop hmeets
  | read i q question =>
    simp only [step] at hstep
    cases hpass : s.passes[i]? with
    | none => rw [hpass] at hstep; cases hstep
    | some pass =>
      simp only [hpass, Option.ite_none_right_eq_some, Option.some.injEq] at hstep
      obtain ⟨-, rfl⟩ := hstep
      exact inv_read h question
  | finish i =>
    simp only [step] at hstep
    cases hpass : s.passes[i]? with
    | none => rw [hpass] at hstep; cases hstep
    | some pass =>
      simp only [hpass, Option.ite_none_right_eq_some, Option.some.injEq, Bool.and_eq_true] at hstep
      obtain ⟨⟨hrunning, hcomplete⟩, rfl⟩ := hstep
      cases hscope : pass.scope with
      | full => exact inv_finish_full h hpass hrunning hscope hcomplete
      | provider id => exact inv_finish_provider h hpass hrunning hscope hcomplete

/-- No call has been made, and the snapshot is right. -/
structure Initial (providers : List P) (s : ModelRuntime P A M K key) : Prop where
  ops : s.ops = []
  passes : s.passes = []
  right : ∀ q ∈ providers, Right s q

omit [DecidableEq K] [DecidableEq M] in
theorem Initial.inv (h : Initial providers s) : Inv providers s := by
  have hnone : ∀ (j : Nat) pass, s.passes[j]? ≠ some pass := by
    intro j pass hj
    rw [h.passes, getElem?_nil] at hj
    cases hj
  refine ⟨⟨fun j pass hj => absurd hj (hnone j pass), fun j pass _ hj =>
    absurd hj (hnone j pass)⟩, fun q hq => .inr ⟨?_, .inl (h.right q hq)⟩⟩
  exact fun j pass hj => absurd hj (hnone j pass)

/-- **The snapshot is right in the end**, for every provider. -/
theorem settled_right (h : Run (Initial providers) (step providers)
      (fun s label => meets providers s label = true) s)
    (hsettled : s.Settled) : ∀ q ∈ providers, Right s q := by
  have hinv : Inv providers s :=
    h.invariant (fun _ hinit => hinit.inv) fun _ _ _ hinv hmeets hstep => inv_step hinv hmeets hstep
  exact fun q hq => hinv.right hsettled hq

/-! ## Two providers -/

/-- A provider without credentials. -/
def loggedOut (models : List Nat) (h : (models.map id).Nodup) : ProviderData Unit Nat Nat id :=
  ⟨none, false, models, id, h, fun _ => List.Sublist.refl _⟩

def loggedIn (models : List Nat) (h : (models.map id).Nodup) : ProviderData Unit Nat Nat id :=
  ⟨some (), true, models, id, h, fun _ => List.Sublist.refl _⟩

/-- A provider whose credential leaves out model 3. -/
def limited : ProviderData Unit Nat Nat id :=
  ⟨some (), true, [2, 3], List.filter (· ≠ 3), by decide, fun _ => filter_sublist⟩

/-- A runtime that has just made a pass over its providers. -/
def created (world : Bool → ProviderData Unit Nat Nat id) : ModelRuntime Bool Unit Nat Nat id where
  world
  snapshot :=
    { all := fun q => (world q).catalog
      available := fun q => (world q).offered
      configuredProviders := fun q => (world q).check.isSome
      storedProviders := fun q => (world q).stored
      auth := fun q => (world q).check }

theorem initial_created (world : Bool → ProviderData Unit Nat Nat id) :
    Initial [false, true] (created world) :=
  ⟨rfl, rfl, fun _ _ => ⟨rfl, rfl, rfl, rfl⟩⟩

/-- A pass asks the four questions of a provider. -/
def asks (pass : Nat) (q : Bool) : List (Label Bool Unit Nat Nat id) :=
  [.read pass q .available, .read pass q .auth, .read pass q .models, .read pass q .stored]

/-- Logins of both providers at once, and a refresh of both. -/
def loginsRun : List (Label Bool Unit Nat Nat id) :=
  [.call (.credential false), .call (.credential true), .begin 0 fun _ => limited,
    .begin 1 fun _ => limited, .change 0 false (loggedIn [0, 1] (by decide)),
    .change 1 true (loggedIn [2] (by decide)), .publish 0, .publish 1] ++
  asks 1 true ++ asks 0 false ++
  [.finish 1, .call .refresh, .begin 2 fun _ => loggedIn [4] (by decide), .finish 0, .publish 2] ++
  asks 2 true ++ asks 2 false ++ [.finish 2]

theorem settled_right_sample :
    Right (Run.afterAll (step [false, true])
      (created fun _ => loggedOut [2] (by decide)) loginsRun) false :=
  settled_right (.of_check (.init (initial_created _)) (by decide +kernel))
    ⟨by decide +kernel, by decide +kernel⟩ false (by decide)

/-- A full pass makes the pass of the first login obsolete, and the second login the
full pass. -/
def lostLoginRun : List (Label Bool Unit Nat Nat id) :=
  [.call (.credential false), .begin 0 fun _ => limited,
    .change 0 false (loggedIn [0] (by decide)), .publish 0, .getAvailable,
    .call (.credential true), .begin 1 fun _ => limited,
    .change 1 true (loggedIn [2] (by decide)), .publish 1] ++
  asks 0 false ++ asks 1 false ++ asks 1 true ++ asks 2 true ++
  [.finish 0, .finish 1, .finish 2]

/-- A login of the second provider. -/
def otherLoginRun : List (Label Bool Unit Nat Nat id) :=
  [.call (.credential true), .begin 0 fun _ => limited,
    .change 0 true (loggedIn [4] (by decide)), .publish 0] ++ asks 0 true ++ [.finish 0]

/-- **A login is lost, and a model that is left out becomes available.** -/
theorem settled_wrong :
    (∃ s : ModelRuntime Bool Unit Nat Nat id,
      Run (Initial [false, true]) (step [false, true]) (fun _ _ => True) s ∧ s.Settled ∧
        (s.world false).check = some () ∧ s.snapshot.auth false = none ∧
          ¬ Right s false) ∧
    ∃ s : ModelRuntime Bool Unit Nat Nat id,
      Run (Initial [false, true]) (step [false, true]) (fun _ _ => True) s ∧ s.Settled ∧
        (s.world false).offered = [2] ∧ s.snapshot.available false = [2, 3] ∧
          ¬ Right s false := by
  refine ⟨⟨Run.afterAll (step [false, true]) (created fun _ => loggedOut [2] (by decide))
      lostLoginRun, .of_check (.init (initial_created _)) (by decide +kernel),
      ⟨by decide +kernel, by decide +kernel⟩, by decide +kernel, by decide +kernel, fun h => ?_⟩,
    Run.afterAll (step [false, true]) (created fun q => if q then loggedOut [4] (by decide)
      else limited) otherLoginRun, .of_check (.init (initial_created _)) (by decide +kernel),
      ⟨by decide +kernel, by decide +kernel⟩, by decide +kernel, by decide +kernel, fun h => ?_⟩
  · have hauth := h.auth
    revert hauth
    decide +kernel
  · have havailable := h.available
    revert havailable
    decide +kernel

end ReflectivePi.Availability
