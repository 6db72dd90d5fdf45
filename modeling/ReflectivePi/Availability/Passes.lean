import ReflectivePi.Availability.Runtime

/-!
# Availability — Passes

When the snapshot is right for a provider, or will be: nothing that is still
valid for the provider has read old data, and either the snapshot has what the
provider answers or a valid pass will bring it.
-/

namespace ReflectivePi.Availability

open List Option

variable {P A M K : Type} {key : M → K} {s s' : ModelRuntime P A M K key} {q id : P}
  {pass : Pass P A M K key} {i j : Nat}

theorem getLast?_filter_key [DecidableEq K] {models : List M} {m : M} (hm : m ∈ models)
    (hdistinct : (models.map key).Nodup) :
    (models.filter fun other => key other = key m).getLast? = some m := by
  induction models with
  | nil => cases hm
  | cons x rest ih =>
    rw [map_cons, nodup_cons] at hdistinct
    obtain ⟨hx, hrest⟩ := hdistinct
    by_cases heq : key x = key m
    · have hnone : rest.filter (fun other => key other = key m) = [] := by
        refine List.filter_eq_nil_iff.mpr fun y hy hkey => hx ?_
        rw [heq, ← of_decide_eq_true hkey]
        exact List.mem_map.mpr ⟨y, hy, rfl⟩
      rw [filter_cons_of_pos (by simpa using heq), hnone]
      rcases List.mem_cons.mp hm with rfl | hmem
      · rfl
      · exact absurd (heq ▸ List.mem_map.mpr ⟨m, hmem, rfl⟩) hx
    · rw [filter_cons_of_neg (by simpa using heq)]
      rcases List.mem_cons.mp hm with rfl | hmem
      · exact absurd rfl heq
      · exact ih hmem hrest

/-- **What is available stays available** as long as the models are the same. -/
theorem keepAvailable_eq [DecidableEq K] {all available : List M}
    (hsub : available.Sublist all) (hdistinct : (all.map key).Nodup) :
    keepAvailable key all available = available := by
  have hkeys : (available.map key).Nodup := hdistinct.sublist (hsub.map key)
  -- a model of the list is found, or no available one has its key
  have hfind : ∀ l : List M, l.Sublist available → ∀ rest : List M, l.Sublist rest →
      (rest.map key).Nodup → (∀ m ∈ available, m ∈ l ∨ key m ∉ rest.map key) →
        keepAvailable key rest available = l := by
    intro l hl rest hrest
    induction hrest with
    | slnil => intros; rfl
    | @cons l rest m hrest ih =>
      intro hnodup hothers
      rw [map_cons, nodup_cons] at hnodup
      have hnone : available.filter (fun other => key other = key m) = [] := by
        refine List.filter_eq_nil_iff.mpr fun x hx hkey => ?_
        have hkey := of_decide_eq_true hkey
        rcases hothers x hx with hmem | hno
        · exact hnodup.1 (hkey ▸ List.mem_map.mpr ⟨x, hrest.subset hmem, rfl⟩)
        · exact hno (by rw [hkey]; simp)
      rw [keepAvailable, filterMap_cons, hnone]
      refine ih hl hnodup.2 fun x hx => (hothers x hx).imp id fun hno hmem => hno ?_
      rw [map_cons]
      exact mem_cons_of_mem _ hmem
    | @cons_cons l rest m hrest ih =>
      intro hnodup hothers
      rw [map_cons, nodup_cons] at hnodup
      have hm : m ∈ available := hl.subset mem_cons_self
      rw [keepAvailable, filterMap_cons, getLast?_filter_key hm hkeys]
      refine congrArg (m :: ·) (ih ((sublist_cons_self _ _).trans hl) hnodup.2 ?_)
      intro x hx
      rcases hothers x hx with hmem | hno
      · rcases List.mem_cons.mp hmem with rfl | hmem
        · exact .inr hnodup.1
        · exact .inl hmem
      · refine .inr fun hmem => hno ?_
        rw [map_cons]
        exact mem_cons_of_mem _ hmem
  exact hfind available (List.Sublist.refl _) all hsub hdistinct fun m hm => .inl hm

theorem ProviderData.offered_sublist (data : ProviderData A M K key) :
    data.offered.Sublist data.catalog := by
  unfold ProviderData.offered
  split
  · exact data.selects _
  · exact nil_sublist _

/-! ## What a provider can count on -/

/-- The pass will publish what it finds for the provider. -/
def ModelRuntime.Counts (s : ModelRuntime P A M K key) (pass : Pass P A M K key) (q : P) : Prop :=
  pass.running = true ∧ ((pass.scope = .full ∧ pass.seq = s.availabilityRefreshSeq) ∨
    (pass.scope = .provider q ∧ s.providerAvailabilitySeq q = some pass.seq))

/-- Nothing that the pass has found of the provider is out of date. -/
def ModelRuntime.Fresh (s : ModelRuntime P A M K key) (pass : Pass P A M K key) (q : P) : Prop :=
  ∀ question data, pass.answers q question = some data → data = s.world q

/-- The snapshot has what the provider answers now. -/
structure Right (s : ModelRuntime P A M K key) (q : P) : Prop where
  auth : s.snapshot.auth q = (s.world q).check
  configured : s.snapshot.configuredProviders q = (s.world q).check.isSome
  stored : s.snapshot.storedProviders q = (s.world q).stored
  available : s.snapshot.available q = (s.world q).offered

def AllFresh (s : ModelRuntime P A M K key) (q : P) : Prop :=
  ∀ (j : Nat) pass, s.passes[j]? = some pass → s.Counts pass q → s.Fresh pass q

/-- A pass over the provider that counts. -/
def HasOwn (s : ModelRuntime P A M K key) (q : P) : Prop :=
  ∃ (j : Nat), ∃ pass, s.passes[j]? = some pass ∧ s.Counts pass q ∧ pass.scope = .provider q

def HasPass (s : ModelRuntime P A M K key) (q : P) : Prop :=
  ∃ (j : Nat), ∃ pass, s.passes[j]? = some pass ∧ s.Counts pass q

/-- The provider is right, or will be. -/
structure Covered (s : ModelRuntime P A M K key) (q : P) : Prop where
  fresh : AllFresh s q
  reach : Right s q ∨ HasPass s q

/-- So it is without the help of a full pass. -/
structure OwnCovered (s : ModelRuntime P A M K key) (q : P) : Prop where
  fresh : AllFresh s q
  reach : Right s q ∨ HasOwn s q

theorem OwnCovered.covered (h : OwnCovered s q) : Covered s q :=
  ⟨h.fresh, h.reach.imp id fun ⟨j, pass, hj, hcounts, _⟩ => ⟨j, pass, hj, hcounts⟩⟩

/-- No pass is newer than the counters. -/
structure Sequenced (s : ModelRuntime P A M K key) : Prop where
  full : ∀ (j : Nat) pass, s.passes[j]? = some pass → pass.scope = .full →
    pass.seq ≤ s.availabilityRefreshSeq
  provider : ∀ (j : Nat) pass q, s.passes[j]? = some pass → pass.scope = .provider q →
    ∃ n, s.providerAvailabilitySeq q = some n ∧ pass.seq ≤ n

theorem getElem?_concat {α : Type} {l : List α} {x y : α}
    (h : (l ++ [x])[j]? = some y) : l[j]? = some y ∨ y = x := by
  rcases Nat.lt_or_ge j l.length with hlt | hge
  · exact .inl (by rwa [getElem?_append_left hlt] at h)
  · rw [getElem?_append_right hge] at h
    exact .inr (List.mem_singleton.mp (mem_of_getElem? h))

/-! ## Passes that start -/

variable [DecidableEq P]

omit [DecidableEq P] in
theorem sequenced_queue [DecidableEq K] (h : Sequenced s) :
    Sequenced s.queueAvailabilityRefresh := by
  refine ⟨fun j pass hj hscope => ?_, fun j pass q hj hscope => ?_⟩
  · rcases getElem?_concat hj with hold | rfl
    · exact Nat.le_succ_of_le (h.full j pass hold hscope)
    · exact Nat.le_refl _
  · rcases getElem?_concat hj with hold | rfl
    · obtain ⟨n, hn, hle⟩ := h.provider j pass q hold hscope
      refine ⟨n + 1, ?_, Nat.le_succ_of_le hle⟩
      show (s.providerAvailabilitySeq q).map (· + 1) = some (n + 1)
      rw [hn]
      rfl
    · cases hscope

omit [DecidableEq P] in
/-- **A full pass starts**: it alone counts, and has read nothing yet. -/
theorem covered_queue [DecidableEq K] (h : Sequenced s) (q : P) :
    Covered s.queueAvailabilityRefresh q := by
  refine ⟨fun j pass hj hcounts => ?_, .inr ⟨s.passes.length, _,
    getElem?_concat_length, rfl, .inl ⟨rfl, rfl⟩⟩⟩
  rcases getElem?_concat hj with hold | rfl
  · obtain ⟨-, ⟨hscope, hseq⟩ | ⟨hscope, hseq⟩⟩ := hcounts
    · have hle := h.full j pass hold hscope
      have hseq : pass.seq = s.availabilityRefreshSeq + 1 := hseq
      omega
    · obtain ⟨n, hn, hle⟩ := h.provider j pass q hold hscope
      have hseq : (s.providerAvailabilitySeq q).map (· + 1) = some pass.seq := hseq
      rw [hn, map_some, Option.some.injEq] at hseq
      omega
  · intro question data hanswer
    cases hanswer

theorem sequenced_start (h : Sequenced s) (id : P) :
    Sequenced (s.refreshProviderAvailability id) := by
  refine ⟨fun j pass hj hscope => ?_, fun j pass q hj hscope => ?_⟩
  · rcases getElem?_concat hj with hold | rfl
    · exact Nat.le_succ_of_le (h.full j pass hold hscope)
    · cases hscope
  · simp only [ModelRuntime.refreshProviderAvailability, Function.update_apply]
    rcases getElem?_concat hj with hold | rfl
    · obtain ⟨n, hn, hle⟩ := h.provider j pass q hold hscope
      by_cases hq : q = id
      · subst hq
        refine ⟨_, if_pos rfl, ?_⟩
        rw [hn, getD_some]
        omega
      · exact ⟨n, by rw [if_neg hq, hn], hle⟩
    · cases hscope
      simp

/-- **A pass over a provider starts**: no earlier pass counts for it. -/
theorem ownCovered_start_self (h : Sequenced s) (id : P) :
    OwnCovered (s.refreshProviderAvailability id) id := by
  have hseq : (s.refreshProviderAvailability id).providerAvailabilitySeq id =
      some ((s.providerAvailabilitySeq id).getD 0 + 1) := by
    simp [ModelRuntime.refreshProviderAvailability]
  refine ⟨fun j pass hj hcounts => ?_, .inr ⟨s.passes.length, _,
    getElem?_concat_length, ⟨rfl, .inr ⟨rfl, hseq⟩⟩, rfl⟩⟩
  rcases getElem?_concat hj with hold | rfl
  · obtain ⟨-, ⟨hscope, hpass⟩ | ⟨hscope, hpass⟩⟩ := hcounts
    · have hle := h.full j pass hold hscope
      have hpass : pass.seq = s.availabilityRefreshSeq + 1 := hpass
      omega
    · obtain ⟨n, hn, hle⟩ := h.provider j pass id hold hscope
      rw [hseq, hn, getD_some, Option.some.injEq] at hpass
      omega
  nofun

theorem ownCovered_start_other (h : Sequenced s) (hq : q ≠ id) (hown : OwnCovered s q) :
    OwnCovered (s.refreshProviderAvailability id) q := by
  have hseq : (s.refreshProviderAvailability id).providerAvailabilitySeq q =
      s.providerAvailabilitySeq q := by
    simp [ModelRuntime.refreshProviderAvailability, hq]
  refine ⟨fun j pass hj hcounts => ?_, ?_⟩
  · rcases getElem?_concat hj with hold | rfl
    · obtain ⟨hrunning, ⟨hscope, hpass⟩ | ⟨hscope, hpass⟩⟩ := hcounts
      · have hle := h.full j pass hold hscope
        have hpass : pass.seq = s.availabilityRefreshSeq + 1 := hpass
        omega
      · rw [hseq] at hpass
        exact hown.fresh j pass hold ⟨hrunning, .inr ⟨hscope, hpass⟩⟩
    nofun
  · rcases hown.reach with hright | ⟨j, pass, hj, ⟨hrunning, hcounts⟩, hscope⟩
    · exact .inl ⟨hright.auth, hright.configured, hright.stored, hright.available⟩
    · have hlt := (List.getElem?_eq_some_iff.mp hj).1
      rcases hcounts with ⟨hfull, -⟩ | ⟨-, hpass⟩
      · rw [hscope] at hfull
        cases hfull
      · refine .inr ⟨j, pass, ?_, ⟨hrunning, .inr ⟨hscope, hseq.trans hpass⟩⟩, hscope⟩
        exact (getElem?_append_left hlt).trans hj

/-- **Passes over several providers start.** -/
theorem ownCovered_foldl (ids : List P) (h : Sequenced s) :
    Sequenced (ids.foldl ModelRuntime.refreshProviderAvailability s) ∧
      ∀ q, q ∈ ids ∨ OwnCovered s q →
        OwnCovered (ids.foldl ModelRuntime.refreshProviderAvailability s) q := by
  induction ids generalizing s with
  | nil => exact ⟨h, fun q hq => hq.resolve_left not_mem_nil⟩
  | cons id ids ih =>
    obtain ⟨hseq, hall⟩ := ih (sequenced_start h id)
    refine ⟨hseq, fun q hq => hall q ?_⟩
    by_cases heq : q = id
    · subst heq
      exact .inr (ownCovered_start_self h q)
    · refine hq.imp (fun hmem => (List.mem_cons.mp hmem).resolve_left heq) fun hown => ?_
      exact ownCovered_start_other h heq hown

end ReflectivePi.Availability
