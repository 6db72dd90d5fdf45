import ReflectivePi.Availability.Passes

/-!
# Availability — Condition

An operation that updates the snapshot puts every model of the other providers
back, and its pass makes a full pass obsolete that another provider waits for.
The condition is that no step does either to a provider without a pass of its own.
-/

namespace ReflectivePi.Availability

open List Bool

variable {P A M K : Type} {key : M → K} {s s' : ModelRuntime P A M K key} {q id : P}
  {pass : Pass P A M K key} {i j : Nat}

/-! ## Frames -/

/-- The states agree on the passes and on what the provider answers. -/
structure Alike (s s' : ModelRuntime P A M K key) (q : P) : Prop where
  full : s'.availabilityRefreshSeq = s.availabilityRefreshSeq
  provider : s'.providerAvailabilitySeq = s.providerAvailabilitySeq
  passes : s'.passes = s.passes
  world : s'.world q = s.world q

theorem Alike.counts (h : Alike s s' q) (hcounts : s'.Counts pass q) : s.Counts pass q := by
  unfold ModelRuntime.Counts at hcounts
  rwa [h.full, h.provider] at hcounts

theorem Alike.counts' (h : Alike s s' q) (hcounts : s.Counts pass q) : s'.Counts pass q := by
  unfold ModelRuntime.Counts
  rwa [h.full, h.provider]

theorem Alike.allFresh (h : Alike s s' q) (hfresh : AllFresh s q) : AllFresh s' q := by
  intro j pass hj hcounts question data hanswer
  rw [h.passes] at hj
  rw [h.world]
  exact hfresh j pass hj (h.counts hcounts) question data hanswer

theorem Alike.hasPass (h : Alike s s' q) (hpass : HasPass s q) : HasPass s' q := by
  obtain ⟨j, pass, hj, hcounts⟩ := hpass
  exact ⟨j, pass, h.passes ▸ hj, h.counts' hcounts⟩

theorem Alike.hasOwn (h : Alike s s' q) (hown : HasOwn s q) : HasOwn s' q := by
  obtain ⟨j, pass, hj, hcounts, hscope⟩ := hown
  exact ⟨j, pass, h.passes ▸ hj, h.counts' hcounts, hscope⟩

theorem Right.congr (h : Right s q) (hsnapshot : s'.snapshot = s.snapshot)
    (hworld : s'.world q = s.world q) : Right s' q := by
  refine ⟨?_, ?_, ?_, ?_⟩ <;> rw [hsnapshot, hworld]
  · exact h.auth
  · exact h.configured
  · exact h.stored
  · exact h.available

theorem Covered.congr (h : Covered s q) (halike : Alike s s' q)
    (hsnapshot : s'.snapshot = s.snapshot) : Covered s' q :=
  ⟨halike.allFresh h.fresh,
    h.reach.imp (fun hright => hright.congr hsnapshot halike.world) halike.hasPass⟩

theorem Sequenced.congr (h : Sequenced s)
    (hfull : s'.availabilityRefreshSeq = s.availabilityRefreshSeq)
    (hprovider : s'.providerAvailabilitySeq = s.providerAvailabilitySeq)
    (hpasses : ∀ (j : Nat) pass', s'.passes[j]? = some pass' →
      ∃ pass, s.passes[j]? = some pass ∧ pass'.scope = pass.scope ∧ pass'.seq = pass.seq) :
    Sequenced s' := by
  refine ⟨fun j pass' hj hscope => ?_, fun j pass' q hj hscope => ?_⟩
  · obtain ⟨pass, hold, hsame, hseq⟩ := hpasses j pass' hj
    rw [hfull, hseq]
    exact h.full j pass hold (hsame ▸ hscope)
  · obtain ⟨pass, hold, hsame, hseq⟩ := hpasses j pass' hj
    rw [hprovider, hseq]
    exact h.provider j pass q hold (hsame ▸ hscope)

/-! ## The condition -/

variable [DecidableEq P]

/-- An operation on the provider has been called and not yet published. -/
def ModelRuntime.isPending (s : ModelRuntime P A M K key) (q : P) : Bool :=
  s.ops.any fun op => op.phase ≠ .published && op.kind.covers q

/-- A pass over the provider alone still counts. -/
def ModelRuntime.ownPass (s : ModelRuntime P A M K key) (q : P) : Bool :=
  s.passes.any fun pass =>
    pass.running && pass.scope = .provider q && s.providerAvailabilitySeq q = some pass.seq

def ModelRuntime.fullPass (s : ModelRuntime P A M K key) : Bool :=
  s.passes.any fun pass =>
    pass.running && pass.scope = .full && pass.seq = s.availabilityRefreshSeq

/-- The filter of the provider leaves no model out. -/
def ProviderData.isPlain [DecidableEq M] (data : ProviderData A M K key) : Bool :=
  data.offered = if data.check.isSome then data.catalog else []

/-- What a step must not do: put left out models back for a provider that no pass
will correct, or make the full pass obsolete that the provider waits for. -/
def meets [DecidableEq M] (providers : List P) (s : ModelRuntime P A M K key) :
    Label P A M K key → Bool
  | .begin i _ =>
    match s.ops[i]? with
    | some ⟨.refreshProviders ids, _⟩ => providers.all fun q =>
      q ∈ ids || s.isPending q || s.ownPass q || s.fullPass || (s.world q).isPlain
    | _ => true
  | .publish i =>
    match s.ops[i]? with
    | none | some ⟨.refresh, _⟩ => true
    | some op => providers.all fun q => op.kind.covers q || s.isPending q || s.ownPass q ||
        (s.world q).isPlain && !s.fullPass
  | _ => true

omit [DecidableEq P] in
theorem HasPass.own_or_full (h : HasPass s q) :
    HasOwn s q ∨ ∃ (j : Nat), ∃ pass, s.passes[j]? = some pass ∧ pass.running = true ∧
      pass.scope = .full ∧ pass.seq = s.availabilityRefreshSeq := by
  obtain ⟨j, pass, hj, hrunning, hfull | hown⟩ := h
  · exact .inr ⟨j, pass, hj, hrunning, hfull⟩
  · exact .inl ⟨j, pass, hj, ⟨hrunning, .inr hown⟩, hown.1⟩

theorem ownPass_iff : s.ownPass q = true ↔ HasOwn s q := by
  simp only [ModelRuntime.ownPass, any_eq_true, and_eq_true, decide_eq_true_eq]
  constructor
  · rintro ⟨pass, hmem, ⟨hrunning, hscope⟩, hseq⟩
    obtain ⟨j, hj⟩ := List.mem_iff_getElem?.mp hmem
    exact ⟨j, pass, hj, ⟨hrunning, .inr ⟨hscope, hseq⟩⟩, hscope⟩
  · rintro ⟨j, pass, hj, ⟨hrunning, hcounts⟩, hscope⟩
    refine ⟨pass, mem_of_getElem? hj, ⟨hrunning, hscope⟩, ?_⟩
    rcases hcounts with ⟨hfull, -⟩ | ⟨-, hseq⟩
    · rw [hscope] at hfull
      cases hfull
    · exact hseq

theorem fullPass_iff : s.fullPass = true ↔ ∃ (j : Nat), ∃ pass, s.passes[j]? = some pass ∧
    pass.running = true ∧ pass.scope = .full ∧ pass.seq = s.availabilityRefreshSeq := by
  simp only [ModelRuntime.fullPass, any_eq_true, and_eq_true, decide_eq_true_eq]
  constructor
  · rintro ⟨pass, hmem, ⟨hrunning, hscope⟩, hseq⟩
    obtain ⟨j, hj⟩ := List.mem_iff_getElem?.mp hmem
    exact ⟨j, pass, hj, hrunning, hscope, hseq⟩
  · rintro ⟨j, pass, hj, hrunning, hscope, hseq⟩
    exact ⟨pass, mem_of_getElem? hj, ⟨hrunning, hscope⟩, hseq⟩

/-- Every provider is being worked on, or is right or will be. -/
structure Inv (providers : List P) (s : ModelRuntime P A M K key) : Prop where
  sequenced : Sequenced s
  covered : ∀ q ∈ providers, s.isPending q = true ∨ Covered s q

/-- Every operation has been published and every pass has ended. -/
def ModelRuntime.Settled (s : ModelRuntime P A M K key) : Prop :=
  (∀ op ∈ s.ops, op.phase = .published) ∧ ∀ pass ∈ s.passes, pass.running = false

theorem Inv.right {providers : List P} (h : Inv providers s) (hsettled : s.Settled)
    (hq : q ∈ providers) : Right s q := by
  rcases h.covered q hq with hpending | hcovered
  · obtain ⟨op, hmem, hop⟩ := List.any_eq_true.mp hpending
    rw [hsettled.1 op hmem] at hop
    cases hop
  · refine hcovered.reach.resolve_right fun ⟨j, pass, hj, hrunning, _⟩ => ?_
    rw [hsettled.2 pass (mem_of_getElem? hj)] at hrunning
    cases hrunning

theorem isPending_append {ops : List (Op P)} (hops : s'.ops = s.ops ++ ops)
    (h : s.isPending q = true) : s'.isPending q = true := by
  unfold ModelRuntime.isPending
  rw [hops, any_append, or_eq_true]
  exact .inl h

theorem isPending_working (hops : s'.ops = s.ops.modify i fun op => { op with phase := .working })
    (h : s.isPending q = true) : s'.isPending q = true := by
  obtain ⟨op, hmem, hop⟩ := List.any_eq_true.mp h
  obtain ⟨j, hj⟩ := List.mem_iff_getElem?.mp hmem
  rw [and_eq_true] at hop
  refine List.any_eq_true.mpr ?_
  rw [hops]
  by_cases heq : i = j
  · refine ⟨{ op with phase := .working }, mem_of_getElem? (i := j) ?_, ?_⟩
    · rw [← heq] at hj ⊢
      rw [getElem?_modify_eq, hj]
      rfl
    · exact and_eq_true _ _ ▸ ⟨rfl, hop.2⟩
  · refine ⟨op, mem_of_getElem? (i := j) ?_, and_eq_true _ _ ▸ hop⟩
    rw [getElem?_modify_ne _ _ heq, hj]

theorem isPending_published {op : Op P} (hop : s.ops[i]? = some op)
    (hcovers : op.kind.covers q = false)
    (hops : s'.ops = s.ops.modify i fun op => { op with phase := .published })
    (h : s.isPending q = true) : s'.isPending q = true := by
  obtain ⟨other, hmem, hother⟩ := List.any_eq_true.mp h
  obtain ⟨j, hj⟩ := List.mem_iff_getElem?.mp hmem
  refine List.any_eq_true.mpr ⟨other, ?_, hother⟩
  have hne : i ≠ j := by
    rintro rfl
    rw [hop, Option.some.injEq] at hj
    rw [← hj, hcovers, Bool.and_false] at hother
    cases hother
  refine mem_of_getElem? (i := j) ?_
  rw [hops, getElem?_modify_ne _ _ hne, hj]

theorem isPending_of_op {op : Op P} (hop : s.ops[i]? = some op) (hphase : op.phase ≠ .published)
    (hcovers : op.kind.covers q = true) : s.isPending q = true := by
  refine List.any_eq_true.mpr ⟨op, mem_of_getElem? hop, ?_⟩
  rw [hcovers, Bool.and_true, decide_eq_true_eq]
  exact hphase

omit [DecidableEq P] in
theorem Right.updateModelSnapshot [DecidableEq K] [DecidableEq M] (h : Right s q)
    (hplain : (s.world q).isPlain = true) : Right s.updateModelSnapshot q := by
  refine ⟨h.auth, h.configured, h.stored, ?_⟩
  have hoffered := of_decide_eq_true hplain
  show (if s.snapshot.configuredProviders q then (s.world q).catalog else []) = _
  rw [h.configured]
  exact hoffered.symm

end ReflectivePi.Availability
