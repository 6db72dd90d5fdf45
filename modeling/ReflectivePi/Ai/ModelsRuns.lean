import ReflectivePi.Ai.Models
import ReflectivePi.Lib.LabelledRun

/-!
# Ai — the models collection in every run

In every run the publications of a provider are made one after another, and
none of them updates what is listed once its generation is superseded. The
store and the list of a provider can still come to differ, where a
publication is superseded between its write and its second check.
-/

namespace ReflectivePi.Ai

open List

/-! ## What the events say -/

def ModelsEvent.write? (providerId : String) :
    ModelsEvent → Option (Nat × Option ModelsStoreEntry)
  | .wrote id i entry => if id = providerId then some (i, entry) else none
  | _ => none

def ModelsEvent.published? (providerId : String) :
    ModelsEvent → Option (Provider × Nat × Option (List Model))
  | .published provider i _ update =>
    if provider.id = providerId then some (provider, i, update) else none
  | _ => none

def ModelsEvent.update? (provider : Provider) : ModelsEvent → Option (List Model)
  | .published provider' _ _ update => if provider' = provider then update else none
  | _ => none

/-- The last publication that was written for a provider id. -/
def lastWrite (events : List ModelsEvent) (providerId : String) :
    Option (Nat × Option ModelsStoreEntry) :=
  events.findSome? (ModelsEvent.write? providerId)

/-- The last publication that returned true for a provider id. -/
def lastPublished (events : List ModelsEvent) (providerId : String) :
    Option (Provider × Nat × Option (List Model)) :=
  events.findSome? (ModelsEvent.published? providerId)

def lastUpdate (events : List ModelsEvent) (provider : Provider) : Option (List Model) :=
  events.findSome? (ModelsEvent.update? provider)

@[simp] theorem lastWrite_superseded (id id' : String) (generation : Nat)
    (events : List ModelsEvent) :
    lastWrite (.superseded id generation :: events) id' = lastWrite events id' := rfl

@[simp] theorem lastWrite_published (provider : Provider) (i generation : Nat)
    (update : Option (List Model)) (events : List ModelsEvent) (id : String) :
    lastWrite (.published provider i generation update :: events) id = lastWrite events id := rfl

theorem lastWrite_wrote (id id' : String) (i : Nat) (entry : Option ModelsStoreEntry)
    (events : List ModelsEvent) :
    lastWrite (.wrote id i entry :: events) id' =
      if id = id' then some (i, entry) else lastWrite events id' := by
  rw [lastWrite, findSome?_cons, ModelsEvent.write?]
  by_cases h : id = id'
  · simp only [if_pos h]
  · simp only [if_neg h]
    rfl

theorem lastPublished_published (provider : Provider) (i generation : Nat)
    (update : Option (List Model)) (events : List ModelsEvent) (id : String) :
    lastPublished (.published provider i generation update :: events) id =
      if provider.id = id then some (provider, i, update) else lastPublished events id := by
  rw [lastPublished, findSome?_cons, ModelsEvent.published?]
  by_cases h : provider.id = id
  · simp only [if_pos h]
  · simp only [if_neg h]
    rfl

theorem lastUpdate_published (provider provider' : Provider) (i generation : Nat)
    (update : Option (List Model)) (events : List ModelsEvent) :
    lastUpdate (.published provider i generation update :: events) provider' =
      if provider = provider' then update.or (lastUpdate events provider')
      else lastUpdate events provider' := by
  rw [lastUpdate, findSome?_cons, ModelsEvent.update?]
  by_cases h : provider = provider'
  · simp only [if_pos h]
    cases update <;> rfl
  · simp only [if_neg h]
    rfl

theorem lastUpdate_of_lastPublished {events : List ModelsEvent} {provider : Provider} {i : Nat}
    {models : List Model} (h : lastPublished events provider.id = some (provider, i, some models)) :
    lastUpdate events provider = some models := by
  induction events with
  | nil => cases h
  | cons event events ih =>
    cases event with
    | superseded id generation => exact ih h
    | wrote id i entry => exact ih h
    | published provider' i' generation update =>
      rw [lastPublished_published] at h
      rw [lastUpdate_published]
      by_cases hid : provider'.id = provider.id
      · rw [if_pos hid] at h
        cases h
        rw [if_pos rfl]
        rfl
      · rw [if_neg hid] at h
        have hne : provider' ≠ provider := fun heq => hid (congrArg Provider.id heq)
        rw [if_neg hne]
        exact ih h

/-- A refresh that hands in nothing more. -/
def RefreshPhase.isLast : RefreshPhase → Bool
  | .publishing _ | .finished => true
  | _ => false

/-- What a created provider publishes. -/
def ModelsPublication.Coherent (publication : ModelsPublication) (provider : Provider) : Prop :=
  (∃ entry, publication = { update := some (provider.restored entry) }) ∨
    ∃ entry : ModelsStoreEntry,
      publication = { persist := some (some entry), update := some entry.models }

theorem of_set {α : Type} {l : List α} {i j : Nat} {new x : α}
    (h : (l.set i new)[j]? = some x) : (j = i ∧ x = new) ∨ (j ≠ i ∧ l[j]? = some x) := by
  by_cases hij : i = j
  · subst hij
    rw [getElem?_set_self'] at h
    cases hi : l[i]? with
    | none => rw [hi] at h; cases h
    | some y => rw [hi] at h; cases h; exact .inl ⟨rfl, rfl⟩
  · rw [getElem?_set_ne hij] at h
    exact .inr ⟨fun heq => hij heq.symm, h⟩

theorem of_append {α : Type} {l : List α} {j : Nat} {new x : α} (h : (l ++ [new])[j]? = some x) :
    (j = l.length ∧ x = new) ∨ (j < l.length ∧ l[j]? = some x) := by
  by_cases hj : j < l.length
  · rw [getElem?_append_left hj] at h
    exact .inr ⟨hj, h⟩
  · rw [getElem?_append_right (by omega)] at h
    have hzero : j - l.length = 0 := by
      by_contra hne
      rw [getElem?_eq_none (by simp; omega)] at h
      cases h
    rw [hzero] at h
    cases h
    exact .inl ⟨by omega, rfl⟩

namespace Models

variable {s s' : Models} {i r : Nat} {publishing : Publishing} {refresh : Refresh}

/-! ## One after another -/

/-- The publications of a provider leave the queue one at a time. -/
structure Queue (s : Models) : Prop where
  serial : ∀ (i j : Nat) (earlier later : Publishing), i < j → s.publishings[i]? = some earlier →
    s.publishings[j]? = some later → earlier.provider.id = later.provider.id →
    later.phase ≠ .queued → earlier.phase.isSettled = true
  previous : ∀ (i j : Nat) (earlier later : Publishing), i < j → s.publishings[i]? = some earlier →
    s.publishings[j]? = some later → earlier.provider.id = later.provider.id →
    earlier.phase.isSettled = true ∨ ∃ (k : Nat) (previous : Publishing), later.previous = some k ∧ i ≤ k ∧
      s.publishings[k]? = some previous ∧ previous.provider.id = later.provider.id
  chain : ∀ (i : Nat) (publishing : Publishing), s.publishings[i]? = some publishing →
    publishing.phase.isSettled = true ∨ ∃ (k : Nat) (tail : Publishing),
      s.publicationChains publishing.provider.id = some k ∧ i ≤ k ∧
      s.publishings[k]? = some tail ∧ tail.provider.id = publishing.provider.id

theorem Queue.congr (h : s.Queue) (hp : s'.publishings = s.publishings)
    (hc : s'.publicationChains = s.publicationChains) : s'.Queue := by
  refine ⟨?_, ?_, ?_⟩
  · rw [hp]; exact h.serial
  · rw [hp]; exact h.previous
  · rw [hp, hc]; exact h.chain

theorem hasSettled_eq (hi : s.publishings[i]? = some publishing) :
    s.hasSettled i = publishing.phase.isSettled := by
  rw [hasSettled, hi]

/-- All earlier publications of the provider have settled once the previous
one has. -/
theorem Queue.ready (h : s.Queue) (hi : s.publishings[i]? = some publishing)
    (hprevious : publishing.previous.all s.hasSettled = true) {k : Nat} {earlier : Publishing}
    (hk : k < i) (hearlier : s.publishings[k]? = some earlier)
    (hid : earlier.provider.id = publishing.provider.id) : earlier.phase.isSettled = true := by
  rcases h.previous k i earlier publishing hk hearlier hi hid with
    hsettled | ⟨m, previous, heq, hkm, hm, hsame⟩
  · exact hsettled
  · rw [heq, Option.all_some, hasSettled_eq hm] at hprevious
    by_cases hkm' : k = m
    · subst hkm'
      rw [hm] at hearlier
      cases hearlier
      exact hprevious
    · refine h.serial k m earlier previous (by omega) hearlier hm (hid.trans hsame.symm) ?_
      intro hqueued
      rw [hqueued] at hprevious
      cases hprevious

theorem Queue.setPhase (h : s.Queue) (hi : s.publishings[i]? = some publishing)
    (phase : PublishPhase) (hopen : publishing.phase.isSettled = false)
    (hready : phase ≠ .queued → ∀ (k : Nat) (earlier : Publishing), k < i → s.publishings[k]? = some earlier →
      earlier.provider.id = publishing.provider.id → earlier.phase.isSettled = true) :
    (s.setPublishing i { publishing with phase }).Queue := by
  have hget : ∀ (k : Nat) (old : Publishing), s.publishings[k]? = some old →
      ∃ new, (s.setPublishing i { publishing with phase }).publishings[k]? = some new ∧
        new.provider = old.provider := by
    intro k old hold
    by_cases hik : i = k
    · subst hik
      rw [hi] at hold
      cases hold
      refine ⟨{ publishing with phase }, ?_, rfl⟩
      rw [setPublishing, getElem?_set_self', hi]
      rfl
    · refine ⟨old, ?_, rfl⟩
      rw [setPublishing, getElem?_set_ne hik]
      exact hold
  refine ⟨?_, ?_, ?_⟩
  · intro k j earlier later hkj hearlier hlater hid hphase
    rcases of_set hearlier with ⟨rfl, rfl⟩ | ⟨hki, hearlier'⟩ <;>
      rcases of_set hlater with ⟨rfl, rfl⟩ | ⟨hji, hlater'⟩
    · omega
    · -- a later one is in progress while this one is not settled
      have hsettled := h.serial k j publishing later hkj hi hlater' hid hphase
      rw [hopen] at hsettled
      cases hsettled
    · exact hready hphase k earlier hkj hearlier' hid
    · exact h.serial k j earlier later hkj hearlier' hlater' hid hphase
  · intro k j earlier later hkj hearlier hlater hid
    have hold : ∃ earlier' later', s.publishings[k]? = some earlier' ∧
        s.publishings[j]? = some later' ∧ earlier'.provider.id = later'.provider.id ∧
        (earlier'.phase.isSettled = true → earlier.phase.isSettled = true) ∧
        later.previous = later'.previous ∧ later.provider = later'.provider := by
      have hnot : publishing.phase.isSettled = true → phase.isSettled = true := by
        rw [hopen]
        exact nofun
      rcases of_set hearlier with ⟨rfl, rfl⟩ | ⟨hki, hearlier'⟩ <;>
        rcases of_set hlater with ⟨rfl, rfl⟩ | ⟨hji, hlater'⟩
      · omega
      · exact ⟨publishing, later, hi, hlater', hid, hnot, rfl, rfl⟩
      · exact ⟨earlier, publishing, hearlier', hi, hid, fun hs => hs, rfl, rfl⟩
      · exact ⟨earlier, later, hearlier', hlater', hid, fun hs => hs, rfl, rfl⟩
    obtain ⟨earlier', later', he, hl, hid', hsettled, hprevious, hprovider⟩ := hold
    rcases h.previous k j earlier' later' hkj he hl hid' with hs | ⟨m, previous, hm⟩
    · exact .inl (hsettled hs)
    · obtain ⟨new, hnew, hsame⟩ := hget m previous hm.2.2.1
      refine .inr ⟨m, new, by rw [hprevious]; exact hm.1, hm.2.1, hnew, ?_⟩
      rw [hsame, hprovider]
      exact hm.2.2.2
  · intro k current hcurrent
    have hold : ∃ old, s.publishings[k]? = some old ∧ current.provider = old.provider ∧
        (old.phase.isSettled = true → current.phase.isSettled = true) := by
      rcases of_set hcurrent with ⟨rfl, rfl⟩ | ⟨hki, hcurrent'⟩
      · exact ⟨publishing, hi, rfl, fun hs => by rw [hopen] at hs; cases hs⟩
      · exact ⟨current, hcurrent', rfl, fun hs => hs⟩
    obtain ⟨old, hold, hprovider, hsettled⟩ := hold
    rcases h.chain k old hold with hs | ⟨m, tail, hchain, hkm, htail, hsame⟩
    · exact .inl (hsettled hs)
    · obtain ⟨new, hnew, hsame'⟩ := hget m tail htail
      refine .inr ⟨m, new, by rw [hprovider]; exact hchain, hkm, hnew, ?_⟩
      rw [hsame', hprovider]
      exact hsame

theorem Queue.publish (h : s.Queue) (publication : ModelsPublication) :
    (s.publishProviderModels r refresh publication).Queue := by
  have hget : ∀ (k : Nat) (old : Publishing), s.publishings[k]? = some old →
      (s.publishProviderModels r refresh publication).publishings[k]? = some old := by
    intro k old hold
    have hk := (List.getElem?_eq_some_iff.mp hold).1
    rw [publishProviderModels, getElem?_append_left hk]
    exact hold
  refine ⟨?_, ?_, ?_⟩
  · intro k j earlier later hkj hearlier hlater hid hphase
    rcases of_append hlater with ⟨rfl, rfl⟩ | ⟨hj, hlater⟩
    · exact absurd rfl hphase
    · rcases of_append hearlier with ⟨rfl, rfl⟩ | ⟨hk, hearlier⟩
      · omega
      · exact h.serial k j earlier later hkj hearlier hlater hid hphase
  · intro k j earlier later hkj hearlier hlater hid
    rcases of_append hlater with ⟨rfl, rfl⟩ | ⟨hj, hlater⟩
    · rcases of_append hearlier with ⟨rfl, rfl⟩ | ⟨hk, hearlier⟩
      · omega
      · rcases h.chain k earlier hearlier with hs | ⟨m, tail, hchain, hkm, htail, hsame⟩
        · exact .inl hs
        · exact .inr ⟨m, tail, by rw [← hchain, hid]; rfl, hkm, hget m tail htail, hsame.trans hid⟩
    · rcases of_append hearlier with ⟨rfl, rfl⟩ | ⟨hk, hearlier⟩
      · omega
      · rcases h.previous k j earlier later hkj hearlier hlater hid with
          hs | ⟨m, previous, heq, hkm, hm, hsame⟩
        · exact .inl hs
        · exact .inr ⟨m, previous, heq, hkm, hget m previous hm, hsame⟩
  · intro k current hcurrent
    have hnew : (s.publishProviderModels r refresh publication).publishings[
        s.publishings.length]? = some (s.newPublishing r refresh publication) := by
      rw [publishProviderModels, getElem?_append_right (Nat.le_refl _), Nat.sub_self]
      rfl
    by_cases hid : current.provider.id = refresh.provider.id
    · refine .inr ⟨s.publishings.length, _, ?_, ?_, hnew, hid.symm⟩
      · rw [publishProviderModels, hid]
        simp
      · rcases of_append hcurrent with ⟨rfl, rfl⟩ | ⟨hk, hcurrent⟩
        · exact Nat.le_refl _
        · exact Nat.le_of_lt hk
    · rcases of_append hcurrent with ⟨rfl, rfl⟩ | ⟨hk, hcurrent⟩
      · exact absurd rfl hid
      · rcases h.chain k current hcurrent with hs | ⟨m, tail, hchain, hkm, htail, hsame⟩
        · exact .inl hs
        · refine .inr ⟨m, tail, ?_, hkm, hget m tail htail, hsame⟩
          exact (Function.update_of_ne hid ..).trans hchain

theorem Queue.forget (h : s.Queue) (hi : s.publishings[i]? = some publishing)
    (hsettled : publishing.phase.isSettled = true)
    (htail : s.publicationChains publishing.provider.id = some i) :
    Queue { s with
      publicationChains := Function.update s.publicationChains publishing.provider.id none } := by
  refine ⟨h.serial, h.previous, ?_⟩
  intro k current hcurrent
  by_cases hid : current.provider.id = publishing.provider.id
  · refine .inl ?_
    rcases h.chain k current hcurrent with hs | ⟨m, tail, hchain, hkm, -, -⟩
    · exact hs
    · rw [hid, htail] at hchain
      cases hchain
      by_cases hki : k = i
      · subst hki
        rw [hi] at hcurrent
        cases hcurrent
        exact hsettled
      · refine h.serial k i current publishing (by omega) hcurrent hi hid fun hqueued => ?_
        rw [hqueued] at hsettled
        cases hsettled
  · rcases h.chain k current hcurrent with hs | ⟨m, tail, hchain, hrest⟩
    · exact .inl hs
    · exact .inr ⟨m, tail, (Function.update_of_ne hid ..).trans hchain, hrest⟩

/-! ## What refreshes hand in -/

structure Programs (s : Models) : Prop where
  generation_le : ∀ (r : Nat) (refresh : Refresh), s.refreshes[r]? = some refresh →
    refresh.generation ≤ s.refreshGenerations refresh.provider.id
  generation_inj : ∀ (r r' : Nat) (refresh refresh' : Refresh),
    s.refreshes[r]? = some refresh → s.refreshes[r']? = some refresh' →
    refresh.provider.id = refresh'.provider.id → refresh.generation = refresh'.generation → r = r'
  owner : ∀ (i : Nat) (publishing : Publishing), s.publishings[i]? = some publishing →
    ∃ refresh, s.refreshes[publishing.refresh]? = some refresh ∧
      refresh.provider = publishing.provider ∧ refresh.generation = publishing.generation
  /-- What was fetched is handed in last. -/
  unpersisted : ∀ (i : Nat) (publishing : Publishing) (refresh : Refresh),
    s.publishings[i]? = some publishing → s.refreshes[publishing.refresh]? = some refresh →
    publishing.provider.refreshModels = .created → refresh.phase.isLast = false →
    publishing.publication.persist = none
  ordered : ∀ (i j : Nat) (earlier later : Publishing), i < j →
    s.publishings[i]? = some earlier → s.publishings[j]? = some later →
    earlier.refresh = later.refresh → earlier.provider.refreshModels = .created →
    earlier.publication.persist = none
  coherent : ∀ (i : Nat) (publishing : Publishing), s.publishings[i]? = some publishing →
    publishing.provider.refreshModels = .created →
    publishing.publication.Coherent publishing.provider

theorem Programs.refresh_eq (h : s.Programs) {i j : Nat} {one other : Publishing}
    (hi : s.publishings[i]? = some one) (hj : s.publishings[j]? = some other)
    (hid : one.provider.id = other.provider.id) (hgen : one.generation = other.generation) :
    one.refresh = other.refresh := by
  obtain ⟨refresh, hr, hprovider, hgeneration⟩ := h.owner i one hi
  obtain ⟨refresh', hr', hprovider', hgeneration'⟩ := h.owner j other hj
  refine h.generation_inj _ _ refresh refresh' hr hr' ?_ ?_
  · rw [hprovider, hprovider', hid]
  omega

/-- Refreshes go on, and keep what they belong to. -/
structure Moves (s s' : Models) : Prop where
  forward : ∀ (r : Nat) (refresh : Refresh), s.refreshes[r]? = some refresh →
    ∃ refresh', s'.refreshes[r]? = some refresh' ∧
      refresh'.provider = refresh.provider ∧ refresh'.generation = refresh.generation
  backward : ∀ (r : Nat) (refresh' : Refresh), s'.refreshes[r]? = some refresh' →
    ∃ refresh, s.refreshes[r]? = some refresh ∧
      refresh'.provider = refresh.provider ∧ refresh'.generation = refresh.generation ∧
      (refresh.phase.isLast = true → refresh'.phase.isLast = true) ∧
      ∀ allowNetwork stored, refresh'.phase = .read allowNetwork stored →
        refresh.phase = .read allowNetwork stored ∨ stored = s.modelsStore refresh.provider.id

theorem Moves.same (h : s'.refreshes = s.refreshes) : Moves s s' :=
  ⟨fun _ refresh hr => ⟨refresh, by rw [h]; exact hr, rfl, rfl⟩,
    fun _ refresh hr => ⟨refresh, by rw [← h]; exact hr, rfl, rfl, fun hl => hl,
      fun _ _ hp => .inl hp⟩⟩

theorem Moves.setRefresh (hr : s.refreshes[r]? = some refresh) (phase : RefreshPhase)
    (aborted : Bool) (hlast : refresh.phase.isLast = true → phase.isLast = true)
    (hread : ∀ allowNetwork stored, phase = .read allowNetwork stored →
      refresh.phase = .read allowNetwork stored ∨ stored = s.modelsStore refresh.provider.id) :
    Moves s (s.setRefresh r { refresh with phase, aborted }) := by
  refine ⟨?_, ?_⟩
  · intro k old hold
    by_cases hrk : r = k
    · subst hrk
      rw [hr] at hold
      cases hold
      refine ⟨{ refresh with phase, aborted }, ?_, rfl, rfl⟩
      rw [Models.setRefresh, getElem?_set_self', hr]
      rfl
    · refine ⟨old, ?_, rfl, rfl⟩
      rw [Models.setRefresh, getElem?_set_ne hrk]
      exact hold
  · intro k new hnew
    rcases of_set hnew with ⟨rfl, rfl⟩ | ⟨hkr, hnew⟩
    · exact ⟨refresh, hr, rfl, rfl, hlast, hread⟩
    · exact ⟨new, hnew, rfl, rfl, fun hl => hl, fun _ _ hp => .inl hp⟩

theorem Moves.abort (s : Models) (call : Nat) :
    Moves s { s with
      refreshes := s.refreshes.map fun refresh =>
        if refresh.call = call then { refresh with aborted := true } else refresh } := by
  refine ⟨?_, ?_⟩
  · intro k old hold
    refine ⟨if old.call = call then { old with aborted := true } else old, ?_, ?_⟩
    · rw [getElem?_map, hold]
      rfl
    · split <;> exact ⟨rfl, rfl⟩
  · intro k new hnew
    rw [getElem?_map] at hnew
    obtain ⟨old, hold, rfl⟩ := Option.map_eq_some_iff.mp hnew
    refine ⟨old, hold, ?_⟩
    split <;> exact ⟨rfl, rfl, fun hl => hl, fun _ _ hp => .inl hp⟩

theorem Moves.abortRefresh (s : Models) (r : Nat) : Moves s (s.abortRefresh r) := by
  unfold Models.abortRefresh
  split
  · rename_i refresh hr
    exact .setRefresh hr refresh.phase true (fun hl => hl) fun _ _ hp => .inl hp
  · exact .same rfl

theorem Programs.moves (h : s.Programs) (hm : Moves s s') (hp : s'.publishings = s.publishings)
    (hg : s'.refreshGenerations = s.refreshGenerations) : s'.Programs := by
  refine ⟨?_, ?_, ?_, ?_, ?_, ?_⟩
  · intro r refresh hr
    obtain ⟨old, hold, hprovider, hgeneration, -⟩ := hm.backward r refresh hr
    rw [hg, hprovider, hgeneration]
    exact h.generation_le r old hold
  · intro r r' refresh refresh' hr hr' hid hgen
    obtain ⟨old, hold, hprovider, hgeneration, -⟩ := hm.backward r refresh hr
    obtain ⟨old', hold', hprovider', hgeneration', -⟩ := hm.backward r' refresh' hr'
    refine h.generation_inj r r' old old' hold hold' ?_ ?_
    · rw [← hprovider, ← hprovider', hid]
    omega
  · intro i publishing hi
    rw [hp] at hi
    obtain ⟨old, hold, hprovider, hgeneration⟩ := h.owner i publishing hi
    obtain ⟨new, hnew, hprovider', hgeneration'⟩ := hm.forward _ old hold
    exact ⟨new, hnew, hprovider'.trans hprovider, hgeneration'.trans hgeneration⟩
  · intro i publishing refresh hi hr hcreated hlast
    rw [hp] at hi
    obtain ⟨old, hold, -, -, hlast', -⟩ := hm.backward _ refresh hr
    refine h.unpersisted i publishing old hi hold hcreated (Bool.eq_false_iff.mpr fun hl => ?_)
    rw [hlast' hl] at hlast
    cases hlast
  · rw [hp]
    exact h.ordered
  · rw [hp]
    exact h.coherent

theorem Programs.setPhase (h : s.Programs) (hi : s.publishings[i]? = some publishing)
    (phase : PublishPhase) : (s.setPublishing i { publishing with phase }).Programs := by
  have hold : ∀ (k : Nat) (new : Publishing),
      (s.setPublishing i { publishing with phase }).publishings[k]? = some new →
      ∃ old, s.publishings[k]? = some old ∧ new = { old with phase := new.phase } := by
    intro k new hnew
    rcases of_set hnew with ⟨rfl, rfl⟩ | ⟨hki, hnew⟩
    · exact ⟨publishing, hi, rfl⟩
    · exact ⟨new, hnew, rfl⟩
  refine ⟨h.generation_le, h.generation_inj, ?_, ?_, ?_, ?_⟩
  · intro k new hnew
    obtain ⟨old, hk, heq⟩ := hold k new hnew
    rw [heq]
    exact h.owner k old hk
  · intro k new refresh hnew
    obtain ⟨old, hk, heq⟩ := hold k new hnew
    rw [heq]
    exact h.unpersisted k old refresh hk
  · intro k j earlier later hkj hearlier hlater
    obtain ⟨old, hk, heq⟩ := hold k earlier hearlier
    obtain ⟨old', hj, heq'⟩ := hold j later hlater
    rw [heq, heq']
    exact h.ordered k j old old' hkj hk hj
  · intro k new hnew
    obtain ⟨old, hk, heq⟩ := hold k new hnew
    rw [heq]
    exact h.coherent k old hk

theorem Programs.publish (h : s.Programs) (hr : s.refreshes[r]? = some refresh)
    {publication : ModelsPublication}
    (hcoherent : refresh.provider.refreshModels = .created →
      publication.Coherent refresh.provider ∧ refresh.phase.isLast = false) {phase : RefreshPhase}
    (hlast : refresh.provider.refreshModels = .created → publication.persist ≠ none →
      phase.isLast = true) (hkeep : refresh.phase.isLast = true → phase.isLast = true) :
    ((s.publishProviderModels r refresh publication).setRefresh r
      { refresh with phase }).Programs := by
  have hmoves : ∀ (k : Nat) (new : Refresh),
      (s.refreshes.set r { refresh with phase })[k]? = some new →
      ∃ old, s.refreshes[k]? = some old ∧ new.provider = old.provider ∧
        new.generation = old.generation ∧ (old.phase.isLast = true → new.phase.isLast = true) := by
    intro k new hnew
    rcases of_set hnew with ⟨rfl, rfl⟩ | ⟨hkr, hnew⟩
    · exact ⟨refresh, hr, rfl, rfl, hkeep⟩
    · exact ⟨new, hnew, rfl, rfl, fun hl => hl⟩
  have hself : (s.refreshes.set r { refresh with phase })[r]? = some { refresh with phase } := by
    rw [getElem?_set_self', hr]
    rfl
  refine ⟨?_, ?_, ?_, ?_, ?_, ?_⟩
  · intro k new hnew
    obtain ⟨old, hk, hprovider, hgeneration, -⟩ := hmoves k new hnew
    rw [hprovider, hgeneration]
    exact h.generation_le k old hk
  · intro k k' new new' hnew hnew' hid hgen
    obtain ⟨old, hk, hprovider, hgeneration, -⟩ := hmoves k new hnew
    obtain ⟨old', hk', hprovider', hgeneration', -⟩ := hmoves k' new' hnew'
    refine h.generation_inj k k' old old' hk hk' ?_ ?_
    · rw [← hprovider, ← hprovider', hid]
    omega
  · intro i current hcurrent
    rcases of_append hcurrent with ⟨rfl, rfl⟩ | ⟨-, hcurrent⟩
    · exact ⟨{ refresh with phase }, hself, rfl, rfl⟩
    · obtain ⟨old, hold, hprovider, hgeneration⟩ := h.owner i current hcurrent
      by_cases hrk : r = current.refresh
      · rw [← hrk, hr] at hold
        cases hold
        exact ⟨{ refresh with phase }, hrk ▸ hself, hprovider, hgeneration⟩
      · refine ⟨old, ?_, hprovider, hgeneration⟩
        show (s.refreshes.set r _)[_]? = _
        rw [getElem?_set_ne hrk]
        exact hold
  · intro i current new hcurrent hnew hcreated hnotLast
    rcases of_append hcurrent with ⟨rfl, rfl⟩ | ⟨-, hcurrent⟩
    · by_contra hpersist
      have hnew' : new = { refresh with phase } := Option.some.inj (hnew.symm.trans hself)
      rw [hnew', show ({ refresh with phase } : Refresh).phase = phase from rfl,
        hlast hcreated hpersist] at hnotLast
      cases hnotLast
    · obtain ⟨old, hold, -, -, hl⟩ := hmoves _ new hnew
      refine h.unpersisted i current old hcurrent hold hcreated
        (Bool.eq_false_iff.mpr fun hlast' => ?_)
      rw [hl hlast'] at hnotLast
      cases hnotLast
  · intro i j earlier later hij hearlier hlater hsame hcreated
    rcases of_append hlater with ⟨rfl, rfl⟩ | ⟨hj, hlater⟩
    · rcases of_append hearlier with ⟨rfl, rfl⟩ | ⟨-, hearlier⟩
      · omega
      · obtain ⟨old, hold, hprovider, -⟩ := h.owner i earlier hearlier
        have hsame' : earlier.refresh = r := hsame
        rw [hsame', hr] at hold
        cases hold
        rw [← hprovider] at hcreated
        exact h.unpersisted i earlier refresh hearlier (by rw [hsame', hr])
          (hprovider ▸ hcreated) (hcoherent hcreated).2
    · rcases of_append hearlier with ⟨rfl, rfl⟩ | ⟨-, hearlier⟩
      · omega
      · exact h.ordered i j earlier later hij hearlier hlater hsame hcreated
  · intro i current hcurrent hcreated
    rcases of_append hcurrent with ⟨rfl, rfl⟩ | ⟨-, hcurrent⟩
    · exact (hcoherent hcreated).1
    · exact h.coherent i current hcurrent hcreated

end Models

end ReflectivePi.Ai
