import ReflectivePi.Lib.LabelledRun
import ReflectivePi.Services.Binding

/-!
# Services — Rebinding

One subscription at a time, as long as a `rebind` that goes on after its
`#reset` finds no start made in the meantime. The starts of the current
revision are then at most one, `#starting`, and an open subscription is
`#subscription` (`Inv`).
-/

namespace ReflectivePi.Services

open List Option

namespace KeyedBinding

variable {ω φ : Type} {ops : FacadeOps ω φ} {b b' : KeyedBinding φ}

/-! ## One subscription -/

/-- Subscribed by this start, and not closed. -/
def IsOpen (b : KeyedBinding φ) (i : Nat) : Prop :=
  ∃ s, b.starts[i]? = some s ∧ (s.phase = .opened ∨ s.phase = .closing)

/-- No promise of the transport is outstanding. -/
def Quiet (b : KeyedBinding φ) : Prop :=
  ∀ s ∈ b.starts, s.phase ≠ .subscribing ∧ s.phase ≠ .closing

/-- The listener of this start applies updates. -/
def Applies (b : KeyedBinding φ) (i : Nat) : Prop :=
  ∃ s, b.starts[i]? = some s ∧ s.revision = b.revision

structure SingleSubscription (ops : FacadeOps ω φ) (b : KeyedBinding φ) :
    Prop where
  one_open : b.Quiet → ∀ i j, b.IsOpen i → b.IsOpen j → i = j
  closed : b.closed = true → b.Quiet → ∀ i, ¬ b.IsOpen i
  one_applies : ∀ i j, b.Applies i → b.Applies j → i = j
  stale : ∀ i s, b.starts[i]? = some s → s.revision < b.revision → ∀ u, b.deliver ops i u = b

/-- A `rebind` that goes on to start finds that nothing was started since
its `#reset`. -/
def StartsOnce (b : KeyedBinding φ) : Label ω → Prop
  | .rebindResumes j => ∀ r, b.rebinds[j]? = some r → b.goesOn r = true → b.starting = none
  | _ => True

/-- The states of the runs whose steps all meet a condition. -/
abbrev Runs (ops : FacadeOps ω φ) (ok : KeyedBinding φ → Label ω → Prop) : KeyedBinding φ → Prop :=
  Run (fun b => ∃ serviceId bound, b = new serviceId bound) (step ops) ok

structure Inv (b : KeyedBinding φ) : Prop where
  current : ∀ i s, b.starts[i]? = some s → s.revision ≤ b.revision ∧
    (s.revision = b.revision → b.starting = some i)
  opened : ∀ i s, b.starts[i]? = some s → s.phase = .opened →
    b.subscription = some i ∧ s.revision = b.revision
  closed : b.closed = true → b.subscription = none

/-- It is about the starts and what `#starting`, `#subscription` and the
counters say of them. -/
theorem Inv.congr (h : Inv b) (hstarts : b'.starts = b.starts)
    (hstarting : b'.starting = b.starting) (hsubscription : b'.subscription = b.subscription)
    (hclosed : b'.closed = b.closed) (hrevision : b'.revision = b.revision) : Inv b' := by
  refine ⟨?_, ?_, ?_⟩
  · rw [hstarts, hstarting, hrevision]
    exact h.current
  · rw [hstarts, hsubscription, hrevision]
    exact h.opened
  · rw [hclosed, hsubscription]
    exact h.closed

/-! ## Parts of the operations -/

theorem spawn_eq {snapshot : ServiceInstanceSnapshot ω} (h : b.spawn ops snapshot = .ok b') :
    b' = { b with instances := b'.instances } := by
  unfold spawn at h
  split at h
  · cases h
  rename_i address _
  cases hfacade : ops.install snapshot with
  | error e =>
    rw [hfacade] at h
    cases h
  | ok facade =>
    rw [hfacade] at h
    change (if _ then _ else _) = _ at h
    split at h
    · cases h
    · cases h
      rfl

variable (ops) in
theorem spawnAll_eq (b : KeyedBinding φ) (snapshots : List (ServiceInstanceSnapshot ω)) :
    (b.spawnAll ops snapshots).1
      = { b with instances := (b.spawnAll ops snapshots).1.instances } := by
  induction snapshots generalizing b with
  | nil => rfl
  | cons snapshot rest ih =>
    unfold spawnAll
    cases hspawn : b.spawn ops snapshot with
    | error e => rfl
    | ok b₁ =>
      simp only
      rw [ih b₁, spawn_eq hspawn]

theorem update_eq (b : KeyedBinding φ) (u : ServiceProviderUpdate ω) :
    b.update ops u = { b with instances := (b.update ops u).instances } := by
  unfold update
  split
  · rfl
  cases u with
  | unavailable => rfl
  | replaced snapshot => rfl
  | spawned snapshot =>
    simp only
    cases hspawn : b.spawn ops snapshot with
    | error e => rfl
    | ok b₁ => exact spawn_eq hspawn
  | closed address =>
    simp only
    split
    · rfl
    · split <;> rfl
  | state address member sequence payload =>
    cases address with
    | none => rfl
    | some address =>
      simp only
      split
      · rfl
      · split <;> rfl

variable (ops) in
theorem deliver_eq (b : KeyedBinding φ) (i : Nat) (u : ServiceProviderUpdate ω) :
    b.deliver ops i u = { b with instances := (b.deliver ops i u).instances } := by
  unfold deliver
  split
  · rfl
  · split
    · exact update_eq b u
    · rfl

theorem getElem?_setPhase {i j : Nat} {phase : Phase} {s : Start}
    (h : (b.setPhase i phase).starts[j]? = some s) :
    ∃ s₀, b.starts[j]? = some s₀ ∧ s.revision = s₀.revision ∧
      s.phase = if i = j then phase else s₀.phase := by
  simp only [setPhase, getElem?_modify, Option.map_eq_map, map_eq_some_iff] at h
  obtain ⟨s₀, hs₀, rfl⟩ := h
  refine ⟨s₀, hs₀, ?_, ?_⟩ <;> split <;> rfl

theorem Inv.setPhase (h : Inv b) (i : Nat) {phase : Phase}
    (hphase : phase ≠ .opened) : Inv (b.setPhase i phase) := by
  refine ⟨?_, ?_, h.closed⟩
  · intro j s hs
    obtain ⟨s₀, hs₀, hrev, -⟩ := getElem?_setPhase hs
    rw [hrev]
    exact h.current j s₀ hs₀
  · intro j s hs hopen
    obtain ⟨s₀, hs₀, hrev, hp⟩ := getElem?_setPhase hs
    rw [hp] at hopen
    split at hopen
    · exact absurd hopen hphase
    · rw [hrev]
      exact h.opened j s₀ hs₀ hopen

theorem Inv.start (h : Inv b) (hnone : b.starting = none) : Inv b.start := by
  have hold : ∀ {i : Nat} {s : Start}, b.starts[i]? = some s → s.revision ≠ b.revision := by
    intro i s hs hrev
    have hstarting := (h.current i s hs).2 hrev
    rw [hnone] at hstarting
    cases hstarting
  have hcases : ∀ {i : Nat} {s : Start}, b.start.starts[i]? = some s → b.starts[i]? = some s ∨
        i = b.starts.length ∧ s = ⟨b.revision, .subscribing⟩ := by
    intro i s hs
    simp only [KeyedBinding.start, getElem?_append] at hs
    split at hs
    · exact .inl hs
    · rename_i hlen
      obtain ⟨hi, hval⟩ := List.getElem?_eq_some_iff.mp hs
      have hi' : i = b.starts.length := by
        simp only [length_singleton] at hi
        omega
      subst hi'
      simp at hval
      exact .inr ⟨rfl, hval.symm⟩
  refine ⟨?_, ?_, h.closed⟩
  · intro i s hs
    rcases hcases hs with hs | ⟨rfl, rfl⟩
    · refine ⟨(h.current i s hs).1, fun hrev => ?_⟩
      exact absurd hrev (hold hs)
    · exact ⟨Nat.le_refl _, fun _ => rfl⟩
  · intro i s hs hopen
    rcases hcases hs with hs | ⟨-, rfl⟩
    · exact absurd (h.opened i s hs hopen).2 (hold hs)
    · cases hopen

theorem Inv.reset (h : Inv b) (closed bound : Bool) :
    Inv ({ b with closed, bound, revision := b.revision + 1 }.reset) := by
  -- what is still open is the held subscription, which is being closed
  have hbefore : ∀ i s, b.starts[i]? = some s → s.phase = .opened →
      b.subscription = some i := fun i s hs hopen => (h.opened i s hs hopen).1
  unfold KeyedBinding.reset
  simp only
  cases hsub : b.subscription with
  | none =>
    refine ⟨?_, ?_, fun _ => rfl⟩
    · intro i s hs
      have hle := (h.current i s hs).1
      refine ⟨Nat.le_succ_of_le hle, fun hrev => ?_⟩
      exact absurd hle (by rw [hrev]; simp)
    · intro i s hs hopen
      have hheld := hbefore i s hs hopen
      rw [hsub] at hheld
      cases hheld
  | some k =>
    refine ⟨?_, ?_, fun _ => rfl⟩
    · intro i s hs
      obtain ⟨s₀, hs₀, hrev, -⟩ := getElem?_setPhase hs
      have hle := (h.current i s₀ hs₀).1
      rw [hrev]
      refine ⟨Nat.le_succ_of_le hle, fun hrev' => ?_⟩
      exact absurd hle (by rw [hrev']; exact Nat.not_succ_le_self _)
    · intro i s hs hopen
      obtain ⟨s₀, hs₀, -, hp⟩ := getElem?_setPhase hs
      rw [hp] at hopen
      split at hopen
      · cases hopen
      · rename_i hne
        have hheld := hbefore i s₀ hs₀ hopen
        rw [hsub] at hheld
        exact absurd (Option.some.inj hheld) hne

theorem Inv.obtained (h : Inv b) {i revision : Nat}
    (hs : b.starts[i]? = some ⟨revision, .subscribing⟩) (snapshot : ServiceSubscriptionSnapshot ω) :
    Inv (b.obtained ops i revision snapshot) := by
  unfold KeyedBinding.obtained
  split
  · exact h.setPhase i (by simp)
  rename_i hcurrent
  simp only [Bool.or_eq_true, not_or, decide_eq_true_eq, ne_eq,
    not_not, Bool.not_eq_true] at hcurrent
  obtain ⟨⟨hclosed, -⟩, hrevision⟩ := hcurrent
  have hopened : Inv { b.setPhase i .opened with subscription := some i } := by
    refine ⟨?_, ?_, ?_⟩
    · intro j s hj
      obtain ⟨s₀, hs₀, hrev, -⟩ := getElem?_setPhase hj
      rw [hrev]
      exact h.current j s₀ hs₀
    · intro j s hj hopen
      obtain ⟨s₀, hs₀, hrev, hp⟩ := getElem?_setPhase hj
      rw [hp] at hopen
      split at hopen
      · rename_i hij
        subst hij
        obtain rfl := Option.some.inj (hs.symm.trans hs₀)
        exact ⟨rfl, hrev.trans hrevision.symm⟩
      · -- another open one would be the start of this revision
        rename_i hne
        obtain ⟨-, hcur⟩ := h.opened j s₀ hs₀ hopen
        have hj' := (h.current j s₀ hs₀).2 hcur
        have hi' := (h.current i _ hs).2 hrevision.symm
        exact absurd (Option.some.inj (hi'.symm.trans hj')) hne
    · intro hc
      have hc' : b.closed = true := hc
      rw [hclosed] at hc'
      cases hc'
  simp only
  split
  · exact hopened
  · have hspawn := spawnAll_eq ops
      { b.setPhase i .opened with subscription := some i } snapshot.instances
    split
    · rename_i b₁ heq
      rw [heq] at hspawn
      simp only at hspawn
      refine hopened.congr ?_ ?_ ?_ ?_ ?_ <;> rw [hspawn]
    · rename_i b₁ heq
      rw [heq] at hspawn
      simp only at hspawn
      refine hopened.congr ?_ ?_ ?_ ?_ ?_ <;> rw [hspawn]

theorem step_inv (h : Inv b) {label : Label ω} (hok : StartsOnce b label)
    (hstep : b.step ops label = some b') : Inv b' := by
  cases label with
  | observe =>
    unfold KeyedBinding.step at hstep
    simp only at hstep
    split at hstep
    · cases hstep
      exact h
    · cases hstep
      exact h.congr rfl rfl rfl rfl rfl
  | observeEnd =>
    unfold KeyedBinding.step at hstep
    simp only at hstep
    split at hstep
    · cases hstep
    cases hstep
    have h' : Inv { b with observing := b.observing - 1 } := h.congr rfl rfl rfl rfl rfl
    split
    · rename_i hstart
      rw [Bool.and_eq_true, isNone_iff_eq_none] at hstart
      exact h'.start hstart.2
    · exact h'
  | stop =>
    unfold KeyedBinding.step at hstep
    simp only at hstep
    split at hstep
    · cases hstep
    · cases hstep
      exact h.congr rfl rfl rfl rfl rfl
  | rebind bound =>
    unfold KeyedBinding.step at hstep
    simp only at hstep
    split at hstep
    · cases hstep
      exact h
    · cases hstep
      have hreset := h.reset b.closed bound
      exact hreset.congr rfl rfl rfl rfl rfl
  | rebindResumes j =>
    unfold KeyedBinding.step at hstep
    simp only at hstep
    split at hstep
    · cases hstep
    rename_i r hr
    split at hstep
    · cases hstep
    have h' : Inv { b with
        rebinds := b.rebinds.modify j fun r => { r with finished := true } } :=
      h.congr rfl rfl rfl rfl rfl
    split at hstep
    · cases hstep
    · cases hstep
      exact h'
    · cases hstep
      split
      · rename_i hgoes
        exact h'.start (hok r hr hgoes)
      · exact h'
  | close =>
    unfold KeyedBinding.step at hstep
    simp only at hstep
    split at hstep
    · cases hstep
      exact h
    · cases hstep
      have hreset := h.reset true b.bound
      exact hreset.congr rfl rfl rfl rfl rfl
  | closeResumes =>
    unfold KeyedBinding.step at hstep
    simp only at hstep
    split at hstep
    · cases hstep
    split at hstep
    · cases hstep
    · cases hstep
      exact h.congr rfl rfl rfl rfl rfl
    · split at hstep
      · cases hstep
        exact h.congr rfl rfl rfl rfl rfl
      · cases hstep
  | subscribed i snapshot =>
    unfold KeyedBinding.step at hstep
    simp only at hstep
    split at hstep
    · rename_i hs
      cases hstep
      exact h.obtained hs snapshot
    · cases hstep
  | subscribeRejected i =>
    unfold KeyedBinding.step at hstep
    simp only at hstep
    split at hstep
    · cases hstep
      exact h.setPhase i (by simp)
    · cases hstep
  | closeSettled i resolved =>
    unfold KeyedBinding.step at hstep
    simp only at hstep
    split at hstep
    · cases hstep
      exact h.setPhase i (by simp)
    · cases hstep
  | update i u =>
    cases hstep
    have heq := deliver_eq ops b i u
    refine h.congr ?_ ?_ ?_ ?_ ?_ <;> rw [heq]

theorem Inv.new (serviceId : String) (bound : Bool) : Inv (new serviceId bound : KeyedBinding φ) :=
  ⟨by simp [KeyedBinding.new], by simp [KeyedBinding.new], fun _ => rfl⟩

theorem Runs.inv (h : Runs ops StartsOnce b) : Inv b := by
  refine h.invariant ?_ fun b label b' hb hok hstep => step_inv hb hok hstep
  rintro _ ⟨serviceId, bound, rfl⟩
  exact .new serviceId bound

theorem Inv.held (h : Inv b) (hq : b.Quiet) {i : Nat} (hi : b.IsOpen i) :
    b.subscription = some i := by
  obtain ⟨s, hs, hopen | hclosing⟩ := hi
  · exact (h.opened i s hs hopen).1
  · exact absurd hclosing (hq s (mem_of_getElem? hs)).2

/-- **A keyed binding never holds two live subscriptions** in a run in
which every `rebind` that goes on is the only one to start. -/
theorem binding_single (h : Runs ops StartsOnce b) : SingleSubscription ops b := by
  have hinv := h.inv
  refine ⟨?_, ?_, ?_, ?_⟩
  · intro hq i j hi hj
    exact Option.some.inj ((hinv.held hq hi).symm.trans (hinv.held hq hj))
  · intro hclosed hq i hi
    have hheld := hinv.held hq hi
    rw [hinv.closed hclosed] at hheld
    cases hheld
  · rintro i j ⟨s, hs, hrev⟩ ⟨s', hs', hrev'⟩
    have hi := (hinv.current i s hs).2 hrev
    have hj := (hinv.current j s' hs').2 hrev'
    exact Option.some.inj (hi.symm.trans hj)
  · intro i s hs hlt u
    rw [deliver, hs]
    exact if_neg (Nat.ne_of_lt hlt)

/-! ## Two runs -/

/-- A facade with nothing in it. -/
def unitOps : FacadeOps Unit Unit := ⟨fun _ => .ok (), fun _ _ _ _ => ()⟩

def emptySnapshot : ServiceSubscriptionSnapshot Unit := ⟨"service", .keyed, []⟩

/-- A bound binding is observed, rebound and closed. -/
def rebindingLabels : List (Label Unit) :=
  [ .observe, .observeEnd, .subscribed 0 emptySnapshot, .rebind true,
    .closeSettled 0 true, .rebindResumes 0, .subscribed 1 emptySnapshot ]

/-- An unbound binding with one observer is rebound; a second observer
comes while the `rebind` awaits its `#reset`. -/
def overlappingLabels : List (Label Unit) :=
  [ .observe, .observeEnd, .rebind true, .observe, .observeEnd,
    .rebindResumes 0, .subscribed 0 emptySnapshot, .subscribed 1 emptySnapshot ]

instance (b : KeyedBinding Unit) :
    (label : Label Unit) → Decidable (StartsOnce b label)
  | .rebindResumes j =>
    decidable_of_iff (∀ r ∈ b.rebinds[j]?.toList, b.goesOn r = true → b.starting.isNone = true) (by
        simp [StartsOnce])
  | .observe | .observeEnd | .stop | .rebind _ | .close | .closeResumes
  | .subscribed _ _ | .subscribeRejected _ | .closeSettled _ _ | .update _ _ =>
    isTrue trivial

theorem binding_single_sample :
    (Run.afterAll (step unitOps) (new "service" true)
        rebindingLabels).subscription = some 1 ∧
      SingleSubscription unitOps (Run.afterAll (step unitOps)
        (new "service" true) rebindingLabels) :=
  ⟨by decide, binding_single (Run.of_check (.init ⟨_, _, rfl⟩) (by decide))⟩

/-- Both `observe` and the `rebind` start: two open subscriptions of one
revision, and the first is never closed. -/
theorem rebind_starts_twice :
    ¬ ∀ b : KeyedBinding Unit, Runs unitOps (fun _ _ => True) b → SingleSubscription unitOps b := by
  intro hall
  have hrun : Runs unitOps (fun _ _ => True) (Run.afterAll (step unitOps)
      (new "service" false) overlappingLabels) :=
    Run.of_check (.init ⟨"service", false, rfl⟩) (by decide)
  have hsingle := hall _ hrun
  have hopen : ∀ i, i < 2 → IsOpen (Run.afterAll (step unitOps)
      (new "service" false) overlappingLabels) i := by
    intro i hi
    refine ⟨⟨1, .opened⟩, ?_, .inl rfl⟩
    match i, hi with
    | 0, _ => decide
    | 1, _ => decide
  have heq := hsingle.one_open (by unfold Quiet; decide) 0 1
    (hopen 0 (by decide)) (hopen 1 (by decide))
  cases heq

end KeyedBinding

end ReflectivePi.Services
