import ReflectivePi.Ai.ModelsRuns

/-!
# Ai — what the store and the providers hold

The store holds what was written last, and a provider lists what was published
last. The two agree where the last publication that was written has returned
true; a write of a superseded generation is what they can differ by.
-/

namespace ReflectivePi.Ai

open List

namespace Models

variable {s s' : Models} {i r : Nat} {publishing : Publishing} {refresh : Refresh}
  {stored : String → Option ModelsStoreEntry}

/-! ## The history -/

structure History (stored : String → Option ModelsStoreEntry) (s : Models) : Prop where
  store : ∀ id, s.modelsStore id = ((lastWrite s.events id).map Prod.snd).getD (stored id)
  memory : ∀ provider, s.dynamicModels provider = (lastUpdate s.events provider).getD []
  superseded_le : ∀ id generation, .superseded id generation ∈ s.events →
    generation ≤ s.refreshGenerations id
  /-- No update has run whose generation was superseded before. -/
  guarded : ∀ newer older provider i generation update,
    s.events = newer ++ .published provider i generation update :: older →
    ∀ generation', .superseded provider.id generation' ∈ older → generation' ≤ generation
  written : ∀ (i : Nat) (publishing : Publishing), s.publishings[i]? = some publishing →
    publishing.phase = .written → ∃ entry, publishing.publication.persist = some entry ∧
      lastWrite s.events publishing.provider.id = some (i, entry)
  published : ∀ provider i generation update, .published provider i generation update ∈ s.events →
    ∃ publishing, s.publishings[i]? = some publishing ∧ publishing.provider = provider ∧
      publishing.generation = generation ∧ publishing.publication.update = update ∧
      publishing.phase = .settled (some true)

theorem History.congr (h : s.History stored) (hp : s'.publishings = s.publishings)
    (hg : s'.refreshGenerations = s.refreshGenerations) (hs : s'.modelsStore = s.modelsStore)
    (hd : s'.dynamicModels = s.dynamicModels) (he : s'.events = s.events) : s'.History stored := by
  refine ⟨?_, ?_, ?_, ?_, ?_, ?_⟩
  · rw [hs, he]; exact h.store
  · rw [hd, he]; exact h.memory
  · rw [hg, he]; exact h.superseded_le
  · rw [he]; exact h.guarded
  · rw [hp, he]; exact h.written
  · rw [hp, he]; exact h.published

/-- A new generation, before the controller of the old one aborts. -/
def superseded (s : Models) (id : String) : Models :=
  let generation := s.refreshGenerations id + 1
  { s with refreshGenerations := Function.update s.refreshGenerations id generation }.log
    (.superseded id generation)

theorem le_superseded (s : Models) (id id' : String) :
    s.refreshGenerations id' ≤ (s.superseded id).refreshGenerations id' := by
  show _ ≤ Function.update s.refreshGenerations id (s.refreshGenerations id + 1) id'
  by_cases hid : id' = id
  · subst hid
    simp
  · exact Nat.le_of_eq (Function.update_of_ne hid ..).symm

theorem superseded_self (s : Models) (id : String) :
    (s.superseded id).refreshGenerations id = s.refreshGenerations id + 1 :=
  Function.update_self ..

theorem History.superseded (h : s.History stored) (id : String) :
    (s.superseded id).History stored := by
  refine ⟨h.store, h.memory, ?_, ?_, h.written, ?_⟩
  · intro id' generation hmem
    rcases List.mem_cons.mp hmem with heq | hmem
    · cases heq
      exact Nat.le_of_eq (s.superseded_self id).symm
    · exact Nat.le_trans (h.superseded_le id' generation hmem) (s.le_superseded id id')
  · intro newer older provider i generation update heq
    cases newer with
    | nil => cases heq
    | cons event newer =>
      exact h.guarded newer older provider i generation update (List.cons.inj heq).2
  · intro provider i generation update hmem
    rcases List.mem_cons.mp hmem with heq | hmem
    · cases heq
    · exact h.published provider i generation update hmem

theorem History.publish (h : s.History stored) (publication : ModelsPublication) :
    (s.publishProviderModels r refresh publication).History stored := by
  refine ⟨h.store, h.memory, h.superseded_le, h.guarded, ?_, ?_⟩
  · intro k current hcurrent hphase
    rcases of_append hcurrent with ⟨rfl, rfl⟩ | ⟨-, hcurrent⟩
    · cases hphase
    · exact h.written k current hcurrent hphase
  · intro provider k generation update hmem
    obtain ⟨current, hcurrent, hrest⟩ := h.published provider k generation update hmem
    refine ⟨current, ?_, hrest⟩
    rw [publishProviderModels, getElem?_append_left (List.getElem?_eq_some_iff.mp hcurrent).1]
    exact hcurrent

variable {generation : Nat} {phase : PublishPhase} {other : Nat → Prop} {label : ModelsStep}

theorem History.published_setPhase (h : s.History stored)
    (hi : s.publishings[i]? = some publishing) (hopen : publishing.phase.isSettled = false)
    (new : Publishing) {provider : Provider} {k : Nat} {update : Option (List Model)}
    (hmem : .published provider k generation update ∈ s.events) :
    ∃ current, (s.setPublishing i new).publishings[k]? = some current ∧
      current.provider = provider ∧ current.generation = generation ∧
      current.publication.update = update ∧ current.phase = .settled (some true) := by
  obtain ⟨current, hcurrent, hprovider, hgeneration, hupdate, hphase⟩ :=
    h.published provider k generation update hmem
  by_cases hik : i = k
  · subst hik
    rw [hi] at hcurrent
    cases hcurrent
    rw [hphase] at hopen
    cases hopen
  · refine ⟨current, ?_, hprovider, hgeneration, hupdate, hphase⟩
    rw [setPublishing, getElem?_set_ne hik]
    exact hcurrent

theorem History.setPhase (h : s.History stored) (hi : s.publishings[i]? = some publishing)
    (hopen : publishing.phase.isSettled = false)
    (hphase : phase ≠ .written) : (s.setPublishing i { publishing with phase }).History stored := by
  refine ⟨h.store, h.memory, h.superseded_le, h.guarded, ?_, ?_⟩
  · intro k current hcurrent hwritten
    rcases of_set hcurrent with ⟨rfl, rfl⟩ | ⟨-, hcurrent⟩
    · exact absurd hwritten hphase
    · exact h.written k current hcurrent hwritten
  · intro provider k generation update hmem
    exact h.published_setPhase hi hopen _ hmem

theorem Queue.alone (h : s.Queue) {k : Nat} {one other : Publishing}
    (hi : s.publishings[i]? = some one) (hk : s.publishings[k]? = some other)
    (hid : one.provider.id = other.provider.id) (hone : one.phase ≠ .queued)
    (hopen : one.phase.isSettled = false) (hother : other.phase ≠ .queued)
    (hopen' : other.phase.isSettled = false) : i = k := by
  rcases Nat.lt_trichotomy i k with hlt | heq | hlt
  · rw [h.serial i k one other hlt hi hk hid hother] at hopen
    cases hopen
  · exact heq
  · rw [h.serial k i other one hlt hk hi hid.symm hone] at hopen'
    cases hopen'

/-- The state after a write. -/
def wrote (s : Models) (i : Nat) (publishing : Publishing) (entry : Option ModelsStoreEntry) :
    Models :=
  { s.setPublishing i { publishing with phase := .written } with
    modelsStore := Function.update s.modelsStore publishing.provider.id entry }.log
      (.wrote publishing.provider.id i entry)

variable {entry : Option ModelsStoreEntry}

theorem History.wrote (h : s.History stored) (hqueue : s.Queue)
    (hi : s.publishings[i]? = some publishing) (hphase : publishing.phase = .writing)
    (hpersist : publishing.publication.persist = some entry) :
    (s.wrote i publishing entry).History stored := by
  have hopen : publishing.phase.isSettled = false := by rw [hphase]; rfl
  refine ⟨?_, h.memory, ?_, ?_, ?_, ?_⟩
  · intro id
    show Function.update s.modelsStore publishing.provider.id entry id =
      ((lastWrite (.wrote publishing.provider.id i entry :: s.events) id).map Prod.snd).getD
        (stored id)
    rw [lastWrite_wrote]
    by_cases hid : publishing.provider.id = id
    · subst hid
      simp
    · rw [Function.update_of_ne (fun heq => hid heq.symm), if_neg hid]
      exact h.store id
  · intro id generation hmem
    rcases List.mem_cons.mp hmem with heq | hmem
    · cases heq
    · exact h.superseded_le id generation hmem
  · intro newer older provider k generation update heq
    cases newer with
    | nil => cases heq
    | cons event newer =>
      exact h.guarded newer older provider k generation update (List.cons.inj heq).2
  · intro k current hcurrent hwritten
    show ∃ entry', current.publication.persist = some entry' ∧
      lastWrite (.wrote publishing.provider.id i entry :: s.events) current.provider.id =
        some (k, entry')
    rw [lastWrite_wrote]
    rcases of_set hcurrent with ⟨rfl, rfl⟩ | ⟨hki, hcurrent⟩
    · exact ⟨entry, hpersist, if_pos rfl⟩
    · obtain ⟨entry', hpersist', hlast⟩ := h.written k current hcurrent hwritten
      have hne : publishing.provider.id ≠ current.provider.id := fun hid =>
        hki (hqueue.alone hi hcurrent hid (by rw [hphase]; exact nofun) hopen
          (by rw [hwritten]; exact nofun) (by rw [hwritten]; rfl)).symm
      exact ⟨entry', hpersist', (if_neg hne).trans hlast⟩
  · intro provider k generation update hmem
    rcases List.mem_cons.mp hmem with heq | hmem
    · cases heq
    · exact h.published_setPhase hi hopen _ hmem

@[simp] theorem update_publishings (s : Models) (i : Nat) (publishing : Publishing) :
    (s.update i publishing).publishings =
      (s.setPublishing i { publishing with phase := .settled (some true) }).publishings := by
  unfold Models.update
  split <;> rfl

@[simp] theorem update_refreshes (s : Models) (i : Nat) (publishing : Publishing) :
    (s.update i publishing).refreshes = s.refreshes := by
  unfold Models.update
  split <;> rfl

@[simp] theorem update_chains (s : Models) (i : Nat) (publishing : Publishing) :
    (s.update i publishing).publicationChains = s.publicationChains := by
  unfold Models.update
  split <;> rfl

@[simp] theorem update_generations (s : Models) (i : Nat) (publishing : Publishing) :
    (s.update i publishing).refreshGenerations = s.refreshGenerations := by
  unfold Models.update
  split <;> rfl

@[simp] theorem update_store (s : Models) (i : Nat) (publishing : Publishing) :
    (s.update i publishing).modelsStore = s.modelsStore := by
  unfold Models.update
  split <;> rfl

@[simp] theorem update_events (s : Models) (i : Nat) (publishing : Publishing) :
    (s.update i publishing).events =
      .published publishing.provider i publishing.generation publishing.publication.update ::
        s.events := by
  unfold Models.update
  split <;> rfl

theorem update_memory (s : Models) (i : Nat) (publishing : Publishing) (provider : Provider) :
    (s.update i publishing).dynamicModels provider = if publishing.provider = provider then
        publishing.publication.update.getD (s.dynamicModels provider)
      else s.dynamicModels provider := by
  unfold Models.update
  split
  · rename_i models hupdate
    rw [hupdate]
    by_cases hprovider : publishing.provider = provider
    · subst hprovider
      rfl
    · rw [if_neg hprovider]
      exact Function.update_of_ne (fun heq => hprovider heq.symm) ..
  · rename_i hupdate
    rw [hupdate]
    split <;> rfl

theorem History.update (h : s.History stored) (hi : s.publishings[i]? = some publishing)
    (hopen : publishing.phase.isSettled = false)
    (hcurrent : s.refreshGenerations publishing.provider.id = publishing.generation) :
    (s.update i publishing).History stored := by
  refine ⟨?_, ?_, ?_, ?_, ?_, ?_⟩
  · intro id
    rw [update_store, update_events, lastWrite_published]
    exact h.store id
  · intro provider
    rw [update_memory, update_events, lastUpdate_published, h.memory provider]
    by_cases hprovider : publishing.provider = provider
    · rw [if_pos hprovider, if_pos hprovider]
      simp
    · rw [if_neg hprovider, if_neg hprovider]
  · intro id generation hmem
    rw [update_events] at hmem
    rw [update_generations]
    rcases List.mem_cons.mp hmem with heq | hmem
    · cases heq
    · exact h.superseded_le id generation hmem
  · intro newer older provider k generation update heq
    rw [update_events] at heq
    cases newer with
    | nil =>
      cases heq
      intro generation' hmem
      exact hcurrent ▸ h.superseded_le _ generation' hmem
    | cons event newer =>
      exact h.guarded newer older provider k generation update (List.cons.inj heq).2
  · intro k current hcurrent' hwritten
    rw [update_publishings] at hcurrent'
    rw [update_events, lastWrite_published]
    rcases of_set hcurrent' with ⟨rfl, rfl⟩ | ⟨-, hcurrent'⟩
    · cases hwritten
    · exact h.written k current hcurrent' hwritten
  · intro provider k generation update hmem
    rw [update_events] at hmem
    rw [update_publishings]
    rcases List.mem_cons.mp hmem with heq | hmem
    · cases heq
      refine ⟨{ publishing with phase := .settled (some true) }, ?_, rfl, rfl, rfl, rfl⟩
      rw [setPublishing, getElem?_set_self', hi]
      rfl
    · exact h.published_setPhase hi hopen _ hmem

/-! ## The store and what is listed -/

/-- The last write is of a publication that has not returned true. -/
def Overtaken (s : Models) (id : String) (other : Nat → Prop) : Prop :=
  ∃ i entry publishing, lastWrite s.events id = some (i, entry) ∧
    s.publishings[i]? = some publishing ∧ publishing.provider.id = id ∧
    publishing.phase ≠ .settled (some true) ∧ other publishing.generation

variable {id : String}

theorem Overtaken.mono (h : s.Overtaken id other)
    (he : lastWrite s'.events id = lastWrite s.events id)
    (hp : ∀ (k : Nat) (old : Publishing), s.publishings[k]? = some old →
      old.provider.id = id → other old.generation → old.phase ≠ .settled (some true) →
      ∃ new, s'.publishings[k]? = some new ∧ new.provider = old.provider ∧
        new.generation = old.generation ∧ new.phase ≠ .settled (some true)) :
    s'.Overtaken id other := by
  obtain ⟨k, entry, old, hlast, hk, hid, hphase, hother⟩ := h
  obtain ⟨new, hnew, hprovider, hgeneration, hphase'⟩ := hp k old hk hid hother hphase
  exact ⟨k, entry, new, he.trans hlast, hnew, by rw [hprovider, hid], hphase',
    by rw [hgeneration]; exact hother⟩

/-- Where a publication moves on, but does not return true. -/
theorem Overtaken.setPhase (h : s.Overtaken id other)
    (hi : s.publishings[i]? = some publishing) (phase : PublishPhase)
    (hphase : phase ≠ .settled (some true) ∨ ¬ other publishing.generation ∨
      publishing.provider.id ≠ id)
    (hp : s'.publishings = (s.setPublishing i { publishing with phase }).publishings)
    (he : lastWrite s'.events id = lastWrite s.events id) : s'.Overtaken id other := by
  refine h.mono he fun k old hk hid hother hold => ?_
  rw [hp]
  by_cases hik : i = k
  · subst hik
    rw [hi] at hk
    cases hk
    refine ⟨{ publishing with phase }, ?_, rfl, rfl, ?_⟩
    · rw [setPublishing, getElem?_set_self', hi]
      rfl
    · rcases hphase with hphase | hphase | hphase
      · exact hphase
      · exact absurd hother hphase
      · exact absurd hid hphase
  · refine ⟨old, ?_, rfl, rfl, hold⟩
    rw [setPublishing, getElem?_set_ne hik]
    exact hk

/-- The store has what was read, unless a publication of another generation
has written since. -/
def Fresh (s : Models) (id : String) (generation : Nat) (entry : ModelsStoreEntry) : Prop :=
  s.modelsStore id = some entry ∨ s.Overtaken id (· ≠ generation)

structure Views (s : Models) : Prop where
  read : ∀ (r : Nat) (refresh : Refresh) allowNetwork entry, s.refreshes[r]? = some refresh →
    refresh.provider.refreshModels = .created →
    refresh.phase = .read allowNetwork (some entry) →
    s.refreshGenerations refresh.provider.id = refresh.generation →
    s.Fresh refresh.provider.id refresh.generation entry
  pending : ∀ (i : Nat) (publishing : Publishing), s.publishings[i]? = some publishing →
    publishing.provider.refreshModels = .created → publishing.phase = .queued →
    publishing.publication.persist = none →
    s.refreshGenerations publishing.provider.id = publishing.generation →
    ∃ entry, publishing.publication.update = some (publishing.provider.restored entry) ∧
      s.Fresh publishing.provider.id publishing.generation entry
  agrees : ∀ (id : String) (provider : Provider) (i : Nat) (update : Option (List Model)),
    lastPublished s.events id = some (provider, i, update) →
    provider.refreshModels = .created →
    (∃ entry, (update = some entry.models ∨ update = some (provider.restored entry)) ∧
      s.modelsStore id = some entry) ∨ s.Overtaken id fun _ => True

theorem Views.moves (h : s.Views) (hm : Moves s s') (hp : s'.publishings = s.publishings)
    (hg : s'.refreshGenerations = s.refreshGenerations) (hs : s'.modelsStore = s.modelsStore)
    (he : s'.events = s.events) : s'.Views := by
  have hmono : ∀ {id : String} {other : Nat → Prop}, s.Overtaken id other →
      s'.Overtaken id other := by
    intro id other hover
    refine hover.mono (by rw [he]) fun k old hk _ _ hphase => ⟨old, ?_, rfl, rfl, hphase⟩
    rw [hp]
    exact hk
  refine ⟨?_, ?_, ?_⟩
  · intro r refresh allowNetwork entry hr hcreated hphase hcurrent
    obtain ⟨old, hold, hprovider, hgeneration, -, hread⟩ := hm.backward r refresh hr
    rw [Fresh, hs, hprovider]
    rcases hread allowNetwork (some entry) hphase with hphase' | hstored
    · rw [hg, hprovider, hgeneration] at hcurrent
      rw [hprovider] at hcreated
      rw [hgeneration]
      exact (h.read r old allowNetwork entry hold hcreated hphase' hcurrent).imp_right hmono
    · exact .inl hstored.symm
  · intro i publishing hi hcreated hphase hpersist hcurrent
    rw [hp] at hi
    rw [hg] at hcurrent
    obtain ⟨entry, hupdate, hfresh⟩ := h.pending i publishing hi hcreated hphase hpersist hcurrent
    exact ⟨entry, hupdate, by rw [Fresh, hs]; exact hfresh.imp_right hmono⟩
  · intro id provider i update hlast hcreated
    rw [he] at hlast
    rw [hs]
    exact (h.agrees id provider i update hlast hcreated).imp_right hmono

theorem Views.superseded (h : s.Views) (hprograms : s.Programs) (id : String) :
    (s.superseded id).Views := by
  have hother : ∀ (id' : String) (generation : Nat), generation ≤ s.refreshGenerations id' →
      (s.superseded id).refreshGenerations id' = generation →
      s.refreshGenerations id' = generation := by
    intro id' generation hle heq
    have := s.le_superseded id id'
    omega
  refine ⟨?_, ?_, ?_⟩
  · intro r refresh allowNetwork entry hr hcreated hphase hcurrent
    exact h.read r refresh allowNetwork entry hr hcreated hphase
      (hother _ _ (hprograms.generation_le r refresh hr) hcurrent)
  · intro i publishing hi hcreated hphase hpersist hcurrent
    obtain ⟨refresh, hr, hprovider, hgeneration⟩ := hprograms.owner i publishing hi
    have hle := hprograms.generation_le _ refresh hr
    rw [hprovider, hgeneration] at hle
    exact h.pending i publishing hi hcreated hphase hpersist (hother _ _ hle hcurrent)
  · exact h.agrees

theorem Views.publish (h : s.Views) (hr : s.refreshes[r]? = some refresh)
    {publication : ModelsPublication} {phase : RefreshPhase}
    (hread : ∀ allowNetwork stored, phase = .read allowNetwork stored → refresh.phase = phase)
    (hfresh : refresh.provider.refreshModels = .created → publication.persist = none →
      s.refreshGenerations refresh.provider.id = refresh.generation →
      ∃ entry, publication.update = some (refresh.provider.restored entry) ∧
        s.Fresh refresh.provider.id refresh.generation entry) :
    ((s.publishProviderModels r refresh publication).setRefresh r
      { refresh with phase }).Views := by
  have hmono : ∀ {id : String} {other : Nat → Prop}, s.Overtaken id other →
      ((s.publishProviderModels r refresh publication).setRefresh r
        { refresh with phase }).Overtaken id other := by
    intro id other hover
    refine hover.mono rfl fun k old hk _ _ hphase => ⟨old, ?_, rfl, rfl, hphase⟩
    show (s.publishings ++ _)[k]? = _
    rw [getElem?_append_left (List.getElem?_eq_some_iff.mp hk).1]
    exact hk
  refine ⟨?_, ?_, ?_⟩
  · intro k new allowNetwork entry hnew hcreated hphase hcurrent
    have hold : s.refreshes[k]? = some { new with phase := .read allowNetwork (some entry) } := by
      rcases of_set hnew with ⟨rfl, rfl⟩ | ⟨-, hnew⟩
      · have hphase' : phase = .read allowNetwork (some entry) := hphase
        have hsame := hread _ _ hphase'
        rw [hr, ← hphase', ← hsame]
      · rw [← hphase]
        exact hnew
    exact (h.read k _ allowNetwork entry hold hcreated rfl hcurrent).imp_right hmono
  · intro k current hk hcreated hphase hpersist hcurrent
    have hold : ∃ entry, current.publication.update = some (current.provider.restored entry) ∧
        s.Fresh current.provider.id current.generation entry := by
      rcases of_append hk with ⟨rfl, rfl⟩ | ⟨-, hk⟩
      · exact hfresh hcreated hpersist hcurrent
      · exact h.pending k current hk hcreated hphase hpersist hcurrent
    obtain ⟨entry, hupdate, hview⟩ := hold
    exact ⟨entry, hupdate, hview.imp_right hmono⟩
  · intro id provider k update hlast hcreated
    exact (h.agrees id provider k update hlast hcreated).imp_right hmono

theorem Views.setPhase (h : s.Views) (hi : s.publishings[i]? = some publishing)
    (hqueued : phase ≠ .queued) (hphase : phase ≠ .settled (some true)) :
    (s.setPublishing i { publishing with phase }).Views := by
  have hmono : ∀ {id : String} {other : Nat → Prop}, s.Overtaken id other →
      (s.setPublishing i { publishing with phase }).Overtaken id other := fun hover =>
    hover.setPhase hi phase (.inl hphase) rfl rfl
  refine ⟨?_, ?_, ?_⟩
  · intro k refresh allowNetwork entry hk hcreated hread hcurrent
    exact (h.read k refresh allowNetwork entry hk hcreated hread hcurrent).imp_right hmono
  · intro k current hk hcreated hqueued' hpersist hcurrent
    rcases of_set hk with ⟨rfl, rfl⟩ | ⟨-, hk⟩
    · exact absurd hqueued' hqueued
    · obtain ⟨entry, hupdate, hfresh⟩ := h.pending k current hk hcreated hqueued' hpersist hcurrent
      exact ⟨entry, hupdate, hfresh.imp_right hmono⟩
  · intro id provider k update hlast hcreated
    exact (h.agrees id provider k update hlast hcreated).imp_right hmono

theorem Overtaken.of_wrote (hi : s.publishings[i]? = some publishing)
    (entry : Option ModelsStoreEntry) (hid : publishing.provider.id = id)
    (hother : other publishing.generation) : (s.wrote i publishing entry).Overtaken id other := by
  have hnew : (s.wrote i publishing entry).publishings[i]? =
      some { publishing with phase := .written } := by
    show (s.publishings.set i _)[i]? = _
    rw [getElem?_set_self', hi]
    rfl
  have hphase : PublishPhase.written ≠ .settled (some true) := nofun
  exact ⟨i, entry, _, (lastWrite_wrote ..).trans (if_pos hid), hnew, hid, hphase, hother⟩

theorem Fresh.wrote {old : ModelsStoreEntry}
    (h : s.Fresh id generation old) (hi : s.publishings[i]? = some publishing)
    (entry : Option ModelsStoreEntry)
    (hother : publishing.provider.id = id → publishing.generation ≠ generation) :
    (s.wrote i publishing entry).Fresh id generation old := by
  by_cases hid : publishing.provider.id = id
  · exact .inr (.of_wrote hi entry hid (hother hid))
  · rcases h with hstore | hover
    · refine .inl ?_
      show Function.update s.modelsStore publishing.provider.id entry id = some old
      rw [Function.update_of_ne fun heq => hid heq.symm]
      exact hstore
    · exact .inr (hover.setPhase hi .written (.inr (.inr hid)) rfl
        ((lastWrite_wrote ..).trans (if_neg hid)))

theorem Views.wrote (h : s.Views) (hprograms : s.Programs) (hqueue : s.Queue)
    (hi : s.publishings[i]? = some publishing) (hphase : publishing.phase = .writing)
    (hpersist : publishing.publication.persist = some entry) :
    (s.wrote i publishing entry).Views := by
  have hnone : publishing.publication.persist ≠ none := by
    rw [hpersist]
    exact nofun
  refine ⟨?_, ?_, ?_⟩
  · intro k refresh allowNetwork old hk hcreated hread hcurrent
    refine (h.read k refresh allowNetwork old hk hcreated hread hcurrent).wrote hi entry
      fun hid hgen => hnone ?_
    -- it would be a publication of the refresh that is still reading
    obtain ⟨owner, howner, hprovider, hgeneration⟩ := hprograms.owner i publishing hi
    have hsame := hprograms.generation_inj _ k owner refresh howner hk
      (by rw [hprovider, hid]) (by rw [hgeneration, hgen])
    rw [hsame] at howner
    cases Option.some.inj (howner.symm.trans hk)
    exact hprograms.unpersisted i publishing refresh hi (by rw [hsame]; exact hk)
      (hprovider ▸ hcreated) (by rw [hread]; rfl)
  · intro k current hk hcreated hqueued hpersist' hcurrent
    rcases of_set hk with ⟨rfl, rfl⟩ | ⟨hki, hk⟩
    · cases hqueued
    · obtain ⟨old, hupdate, hfresh⟩ := h.pending k current hk hcreated hqueued hpersist' hcurrent
      refine ⟨old, hupdate, hfresh.wrote hi entry fun hid hgen => ?_⟩
      have hsame := hprograms.refresh_eq hi hk hid hgen
      have hprovider : publishing.provider = current.provider := by
        obtain ⟨owner, howner, heq, -⟩ := hprograms.owner i publishing hi
        obtain ⟨owner', howner', heq', -⟩ := hprograms.owner k current hk
        rw [hsame] at howner
        cases howner.symm.trans howner'
        rw [← heq, ← heq']
      rcases Nat.lt_or_gt_of_ne hki with hlt | hlt
      · have hsettled := hqueue.serial k i current publishing hlt hk hi hid.symm
          (by rw [hphase]; exact nofun)
        rw [hqueued] at hsettled
        cases hsettled
      · exact hnone (hprograms.ordered i k publishing current hlt hi hk hsame
          (by rw [hprovider]; exact hcreated))
  · intro id provider k update hlast hcreated
    by_cases hid : publishing.provider.id = id
    · exact .inr (.of_wrote hi entry hid trivial)
    · rcases h.agrees id provider k update hlast hcreated with ⟨old, hupdate, hstore⟩ | hover
      · refine .inl ⟨old, hupdate, ?_⟩
        show Function.update s.modelsStore publishing.provider.id entry id = some old
        rw [Function.update_of_ne fun heq => hid heq.symm]
        exact hstore
      · exact .inr (hover.setPhase hi .written (.inr (.inr hid)) rfl
          ((lastWrite_wrote ..).trans (if_neg hid)))

theorem Fresh.update {entry : ModelsStoreEntry}
    (h : s.Fresh id generation entry) (hi : s.publishings[i]? = some publishing)
    (hcurrent : s.refreshGenerations publishing.provider.id = publishing.generation)
    (hgen : s.refreshGenerations id = generation) :
    (s.update i publishing).Fresh id generation entry := by
  refine h.imp (fun hstore => by rw [update_store]; exact hstore) fun hover => ?_
  refine hover.setPhase hi (.settled (some true)) (.inr ?_) (update_publishings ..) (by simp)
  by_cases hid : publishing.provider.id = id
  · rw [hid, hgen] at hcurrent
    omega
  · exact .inr hid

theorem Views.update (h : s.Views) (hprograms : s.Programs) (hhistory : s.History stored)
    (hi : s.publishings[i]? = some publishing)
    (hcurrent : s.refreshGenerations publishing.provider.id = publishing.generation)
    (hphase : publishing.phase = .queued ∧ publishing.publication.persist = none ∨
      publishing.phase = .written) : (s.update i publishing).Views := by
  refine ⟨?_, ?_, ?_⟩
  · intro k refresh allowNetwork entry hk hcreated hread hgen
    rw [update_refreshes] at hk
    rw [update_generations] at hgen
    exact (h.read k refresh allowNetwork entry hk hcreated hread hgen).update hi hcurrent hgen
  · intro k current hk hcreated hqueued hpersist hgen
    rw [update_publishings] at hk
    rw [update_generations] at hgen
    rcases of_set hk with ⟨rfl, rfl⟩ | ⟨-, hk⟩
    · cases hqueued
    · obtain ⟨entry, hupdate, hfresh⟩ := h.pending k current hk hcreated hqueued hpersist hgen
      exact ⟨entry, hupdate, hfresh.update hi hcurrent hgen⟩
  · intro id provider k update hlast hcreated
    rw [update_events, lastPublished_published] at hlast
    rw [update_store]
    by_cases hid : publishing.provider.id = id
    · rw [if_pos hid] at hlast
      cases hlast
      rcases hphase with ⟨hqueued, hpersist⟩ | hwritten
      · obtain ⟨entry, hupdate, hfresh⟩ :=
          h.pending i publishing hi hcreated hqueued hpersist hcurrent
        rw [hid] at hfresh
        rcases hfresh with hstore | hover
        · exact .inl ⟨entry, .inr hupdate, hstore⟩
        · obtain ⟨k, entry', old, hlast, hk, hold, hphase', hother⟩ := hover
          have hki : i ≠ k := by
            rintro rfl
            cases hi.symm.trans hk
            exact hother rfl
          refine .inr ⟨k, entry', old, ?_, ?_, hold, hphase', trivial⟩
          · rw [update_events, lastWrite_published]
            exact hlast
          · rw [update_publishings, setPublishing, getElem?_set_ne hki]
            exact hk
      · obtain ⟨entry, hpersist, hlast⟩ := hhistory.written i publishing hi hwritten
        have hstore := hhistory.store publishing.provider.id
        rw [hlast, hid] at hstore
        rcases hprograms.coherent i publishing hi hcreated with ⟨old, heq⟩ | ⟨old, heq⟩
        · rw [heq] at hpersist
          cases hpersist
        · rw [heq] at hpersist
          cases hpersist
          exact .inl ⟨old, .inl (by rw [heq]), hstore⟩
    · rw [if_neg hid] at hlast
      refine (h.agrees id provider k update hlast hcreated).imp_right fun hover => ?_
      exact hover.setPhase hi (.settled (some true)) (.inr (.inr hid)) (update_publishings ..)
        (by simp)

/-! ## The invariant -/

structure Inv (stored : String → Option ModelsStoreEntry) (s : Models) : Prop where
  queue : s.Queue
  programs : s.Programs
  history : s.History stored
  views : s.Views

theorem inv_create (stored : String → Option ModelsStoreEntry) : Inv stored (create stored) where
  queue := ⟨(fun _ _ _ _ _ h => by cases h), (fun _ _ _ _ _ h => by cases h),
    (fun _ _ h => by cases h)⟩
  programs := ⟨(fun _ _ h => by cases h), (fun _ _ _ _ h => by cases h),
    (fun _ _ h => by cases h), (fun _ _ _ h => by cases h), (fun _ _ _ _ _ h => by cases h),
    (fun _ _ h => by cases h)⟩
  history := by
    refine ⟨fun _ => rfl, fun _ => rfl, (fun _ _ h => by cases h), ?_, (fun _ _ h => by cases h),
      (fun _ _ _ _ h => by cases h)⟩
    intro newer older provider i generation update heq
    cases newer <;> cases heq
  views := ⟨(fun _ _ _ _ h => by cases h), (fun _ _ h => by cases h), (fun _ _ _ _ h => by cases h)⟩

theorem Inv.moves (h : s.Inv stored) (hm : Moves s s') (hp : s'.publishings = s.publishings)
    (hc : s'.publicationChains = s.publicationChains)
    (hg : s'.refreshGenerations = s.refreshGenerations) (hs : s'.modelsStore = s.modelsStore)
    (hd : s'.dynamicModels = s.dynamicModels) (he : s'.events = s.events) : s'.Inv stored where
  queue := h.queue.congr hp hc
  programs := h.programs.moves hm hp hg
  history := h.history.congr hp hg hs hd he
  views := h.views.moves hm hp hg hs he

theorem Inv.setRefresh (h : s.Inv stored) (hr : s.refreshes[r]? = some refresh)
    (phase : RefreshPhase) (hlast : refresh.phase.isLast = true → phase.isLast = true)
    (hread : ∀ allowNetwork entry, phase = .read allowNetwork entry →
      refresh.phase = .read allowNetwork entry ∨ entry = s.modelsStore refresh.provider.id) :
    (s.setRefresh r { refresh with phase }).Inv stored :=
  h.moves (.setRefresh hr phase refresh.aborted hlast hread) rfl rfl rfl rfl rfl rfl

theorem Inv.setRefresh' (h : s.Inv stored) (hr : s.refreshes[r]? = some refresh)
    (phase : RefreshPhase) (hlast : refresh.phase.isLast = true → phase.isLast = true)
    (hread : ∀ allowNetwork entry, phase ≠ .read allowNetwork entry) :
    (s.setRefresh r { refresh with phase }).Inv stored :=
  h.setRefresh hr phase hlast fun allowNetwork entry heq =>
    absurd heq (hread allowNetwork entry)

theorem Inv.superseded (h : s.Inv stored) (id : String) : (s.superseded id).Inv stored where
  queue := h.queue.congr rfl rfl
  programs := { h.programs with
    generation_le := fun r refresh hr =>
      Nat.le_trans (h.programs.generation_le r refresh hr) (s.le_superseded id _) }
  history := h.history.superseded id
  views := h.views.superseded h.programs id

theorem supersede_eq (s : Models) (id : String) :
    s.supersedeProviderRefresh id = match s.refreshControllers id with
      | some previous =>
        { s.superseded id with
          refreshControllers := Function.update s.refreshControllers id none }.abortRefresh previous
      | none => s.superseded id := rfl

theorem abortRefresh_frame (s : Models) (r : Nat) :
    (s.abortRefresh r).publishings = s.publishings ∧
      (s.abortRefresh r).publicationChains = s.publicationChains ∧
      (s.abortRefresh r).refreshGenerations = s.refreshGenerations ∧
      (s.abortRefresh r).modelsStore = s.modelsStore ∧
      (s.abortRefresh r).dynamicModels = s.dynamicModels ∧
      (s.abortRefresh r).events = s.events := by
  unfold Models.abortRefresh
  split <;> exact ⟨rfl, rfl, rfl, rfl, rfl, rfl⟩

theorem Inv.supersede (h : s.Inv stored) (id : String) :
    (s.supersedeProviderRefresh id).Inv stored := by
  rw [supersede_eq]
  split
  · rename_i previous _
    have hcore : Inv stored { s.superseded id with
        refreshControllers := Function.update s.refreshControllers id none } :=
      (h.superseded id).moves (.same rfl) rfl rfl rfl rfl rfl rfl
    obtain ⟨hp, hc, hg, hs, hd, he⟩ := abortRefresh_frame { s.superseded id with
      refreshControllers := Function.update s.refreshControllers id none } previous
    exact hcore.moves (.abortRefresh _ previous) hp hc hg hs hd he
  · exact h.superseded id

theorem supersede_generations (s : Models) (id : String) :
    (s.supersedeProviderRefresh id).refreshGenerations = (s.superseded id).refreshGenerations := by
  rw [supersede_eq]
  split
  · exact (abortRefresh_frame ..).2.2.1
  · rfl

theorem supersede_refreshes (s : Models) (id : String)
    (hr : (s.supersedeProviderRefresh id).refreshes[r]? = some refresh) :
    ∃ old, s.refreshes[r]? = some old ∧ refresh.provider = old.provider ∧
      refresh.generation = old.generation := by
  rw [supersede_eq] at hr
  split at hr
  · obtain ⟨old, hold, hprovider, hgeneration, -⟩ := (Moves.abortRefresh _ _).backward r refresh hr
    exact ⟨old, hold, hprovider, hgeneration⟩
  · exact ⟨refresh, hr, rfl, rfl⟩

/-- A refresh of a generation that no other refresh has. -/
theorem Inv.begin (h : s.Inv stored) {new : Refresh}
    (hgeneration : new.generation = s.refreshGenerations new.provider.id)
    (hreading : new.phase = .reading false)
    (hnew : ∀ (r : Nat) (refresh : Refresh), s.refreshes[r]? = some refresh →
      refresh.provider.id = new.provider.id → refresh.generation < new.generation)
    (hs' : s'.refreshes = s.refreshes ++ [new]) (hp : s'.publishings = s.publishings)
    (hc : s'.publicationChains = s.publicationChains)
    (hg : s'.refreshGenerations = s.refreshGenerations) (hs : s'.modelsStore = s.modelsStore)
    (hd : s'.dynamicModels = s.dynamicModels) (he : s'.events = s.events) : s'.Inv stored := by
  have hkeep : ∀ (r : Nat) (refresh : Refresh), s.refreshes[r]? = some refresh →
      s'.refreshes[r]? = some refresh := by
    intro r refresh hr
    rw [hs', getElem?_append_left (List.getElem?_eq_some_iff.mp hr).1]
    exact hr
  have hone : ∀ (r : Nat) (refresh : Refresh), s'.refreshes[r]? = some refresh →
      (r = s.refreshes.length ∧ refresh = new) ∨ s.refreshes[r]? = some refresh := by
    intro r refresh hr
    rw [hs'] at hr
    rcases of_append hr with hr | hr
    · exact .inl hr
    · exact .inr hr.2
  refine ⟨h.queue.congr hp hc, ⟨?_, ?_, ?_, ?_, ?_, ?_⟩, h.history.congr hp hg hs hd he,
    ⟨?_, ?_, ?_⟩⟩
  · intro r refresh hr
    rw [hg]
    rcases hone r refresh hr with ⟨-, rfl⟩ | hr
    · omega
    · exact h.programs.generation_le r refresh hr
  · intro r r' refresh refresh' hr hr' hid hgen
    rcases hone r refresh hr with ⟨rfl, rfl⟩ | hr <;>
      rcases hone r' refresh' hr' with ⟨rfl, rfl⟩ | hr'
    · rfl
    · exact absurd hgen.symm (Nat.ne_of_lt (hnew r' refresh' hr' hid.symm))
    · exact absurd hgen (Nat.ne_of_lt (hnew r refresh hr hid))
    · exact h.programs.generation_inj r r' refresh refresh' hr hr' hid hgen
  · intro i publishing hi
    rw [hp] at hi
    obtain ⟨owner, howner, hrest⟩ := h.programs.owner i publishing hi
    exact ⟨owner, hkeep _ owner howner, hrest⟩
  · intro i publishing refresh hi hr
    rw [hp] at hi
    obtain ⟨owner, howner, -⟩ := h.programs.owner i publishing hi
    cases Option.some.inj ((hkeep _ owner howner).symm.trans hr)
    exact h.programs.unpersisted i publishing refresh hi howner
  · rw [hp]
    exact h.programs.ordered
  · rw [hp]
    exact h.programs.coherent
  · intro r refresh net entry hr hcreated hphase hcurrent
    rcases hone r refresh hr with ⟨-, rfl⟩ | hr
    · rw [hreading] at hphase
      cases hphase
    · rw [hg] at hcurrent
      have hfresh := h.views.read r refresh net entry hr hcreated hphase hcurrent
      rwa [Fresh, Overtaken, ← hs, ← he, ← hp] at hfresh
  · rw [hp, hg]
    intro i publishing hi hcreated hphase hpersist hcurrent
    obtain ⟨entry, hupdate, hfresh⟩ :=
      h.views.pending i publishing hi hcreated hphase hpersist hcurrent
    rw [Fresh, Overtaken, ← hs, ← he, ← hp] at hfresh
    exact ⟨entry, hupdate, hfresh⟩
  · intro id provider i update hlast hcreated
    rw [he] at hlast
    have hagrees := h.views.agrees id provider i update hlast hcreated
    rwa [Overtaken, ← hs, ← he, ← hp] at hagrees

theorem Inv.beginProviderRefresh (h : s.Inv stored) (call : Nat) (allowNetwork : Bool)
    (provider : Provider) : (s.beginProviderRefresh call allowNetwork provider).Inv stored := by
  refine (h.supersede provider.id).begin rfl rfl ?_ rfl rfl rfl rfl rfl rfl rfl
  intro r refresh hr hid
  obtain ⟨old, hold, hprovider, hgeneration⟩ := s.supersede_refreshes provider.id hr
  show refresh.generation < (s.supersedeProviderRefresh provider.id).refreshGenerations provider.id
  rw [supersede_generations, superseded_self, hgeneration]
  have hle := h.programs.generation_le r old hold
  rw [← hprovider, hid] at hle
  exact Nat.lt_succ_of_le hle

theorem Inv.publish (h : s.Inv stored) (hr : s.refreshes[r]? = some refresh)
    {publication : ModelsPublication}
    (hcoherent : refresh.provider.refreshModels = .created →
      publication.Coherent refresh.provider ∧ refresh.phase.isLast = false) {phase : RefreshPhase}
    (hlast : refresh.provider.refreshModels = .created → publication.persist ≠ none →
      phase.isLast = true) (hkeep : refresh.phase.isLast = true → phase.isLast = true)
    (hread : ∀ allowNetwork entry, phase = .read allowNetwork entry → refresh.phase = phase)
    (hfresh : refresh.provider.refreshModels = .created → publication.persist = none →
      s.refreshGenerations refresh.provider.id = refresh.generation →
      ∃ entry, publication.update = some (refresh.provider.restored entry) ∧
        s.Fresh refresh.provider.id refresh.generation entry) :
    ((s.publishProviderModels r refresh publication).setRefresh r
      { refresh with phase }).Inv stored where
  queue := (h.queue.publish publication).congr rfl rfl
  programs := h.programs.publish hr hcoherent hlast hkeep
  history := (h.history.publish publication).congr rfl rfl rfl rfl rfl
  views := h.views.publish hr hread hfresh

theorem Inv.setPhase (h : s.Inv stored) (hi : s.publishings[i]? = some publishing)
    (hopen : publishing.phase.isSettled = false)
    (hready : ∀ (k : Nat) (earlier : Publishing), k < i → s.publishings[k]? = some earlier →
      earlier.provider.id = publishing.provider.id → earlier.phase.isSettled = true)
    (hqueued : phase ≠ .queued) (hwritten : phase ≠ .written)
    (htrue : phase ≠ .settled (some true)) :
    (s.setPublishing i { publishing with phase }).Inv stored where
  queue := h.queue.setPhase hi phase hopen fun _ => hready
  programs := h.programs.setPhase hi phase
  history := h.history.setPhase hi hopen hwritten
  views := h.views.setPhase hi hqueued htrue

theorem Queue.behind (h : s.Queue) (hi : s.publishings[i]? = some publishing)
    (hphase : publishing.phase ≠ .queued) (k : Nat) (earlier : Publishing) (hk : k < i)
    (hearlier : s.publishings[k]? = some earlier)
    (hid : earlier.provider.id = publishing.provider.id) : earlier.phase.isSettled = true :=
  h.serial k i earlier publishing hk hearlier hi hid hphase

theorem Inv.wrote (h : s.Inv stored) (hi : s.publishings[i]? = some publishing)
    (hphase : publishing.phase = .writing)
    (hpersist : publishing.publication.persist = some entry) :
    (s.wrote i publishing entry).Inv stored where
  queue := (h.queue.setPhase hi .written (by rw [hphase]; rfl) fun _ =>
    h.queue.behind hi (by rw [hphase]; exact nofun)).congr rfl rfl
  programs := (h.programs.setPhase hi .written).moves (.same rfl) rfl rfl
  history := h.history.wrote h.queue hi hphase hpersist
  views := h.views.wrote h.programs h.queue hi hphase hpersist

theorem Inv.update (h : s.Inv stored) (hi : s.publishings[i]? = some publishing)
    (hready : ∀ (k : Nat) (earlier : Publishing), k < i → s.publishings[k]? = some earlier →
      earlier.provider.id = publishing.provider.id → earlier.phase.isSettled = true)
    (hcurrent : s.isCurrent publishing = true)
    (hphase : publishing.phase = .queued ∧ publishing.publication.persist = none ∨
      publishing.phase = .written) : (s.update i publishing).Inv stored := by
  have hopen : publishing.phase.isSettled = false := by
    rcases hphase with ⟨hphase, -⟩ | hphase <;> rw [hphase] <;> rfl
  rw [isCurrent, Bool.and_eq_true, beq_iff_eq] at hcurrent
  exact {
    queue := (h.queue.setPhase hi (.settled (some true)) hopen fun _ => hready).congr
      (update_publishings ..) (update_chains ..)
    programs := (h.programs.setPhase hi (.settled (some true))).moves
      (.same (update_refreshes ..)) (update_publishings ..) (update_generations ..)
    history := h.history.update hi hopen hcurrent.2
    views := h.views.update h.programs h.history hi hcurrent.2 hphase }

/-! ## Every step -/

theorem afterPhase_ne_read (refresh : Refresh) (net allowNetwork : Bool)
    (entry : Option ModelsStoreEntry) : refresh.afterPhase net ≠ .read allowNetwork entry := by
  unfold Refresh.afterPhase
  split <;> exact nofun

theorem afterRestore_ne_read (refresh : Refresh) (net allowNetwork : Bool)
    (entry : Option ModelsStoreEntry) : refresh.afterRestore net ≠ .read allowNetwork entry := by
  unfold Refresh.afterRestore
  split
  · exact afterPhase_ne_read refresh net allowNetwork entry
  · exact nofun

theorem setRefresh_self (hr : s.refreshes[r]? = some refresh) : s.setRefresh r refresh = s := by
  have hlt := (List.getElem?_eq_some_iff.mp hr).1
  have heq := (List.getElem?_eq_some_iff.mp hr).2
  unfold Models.setRefresh
  rw [← heq, set_getElem_self hlt]

theorem Inv.handwritten (h : s.Inv stored) (hr : s.refreshes[r]? = some refresh)
    (hkind : refresh.provider.refreshModels = .handwritten) (publication : ModelsPublication) :
    (s.publishProviderModels r refresh publication).Inv stored := by
  have hnot : refresh.provider.refreshModels ≠ .created := by
    rw [hkind]
    exact nofun
  have hsame : (s.publishProviderModels r refresh publication).refreshes[r]? = some refresh := hr
  rw [← setRefresh_self hsame]
  exact h.publish hr (fun hcreated => absurd hcreated hnot)
    (fun hcreated => absurd hcreated hnot) (fun hl => hl) (fun _ _ _ => rfl)
    fun hcreated => absurd hcreated hnot

theorem Inv.advanceRefresh (h : s.Inv stored) (hr : s.refreshes[r]? = some refresh)
    (hs : s.advanceRefresh r refresh label = some s') : s'.Inv stored := by
  cases label with
  | readStored r' =>
    rw [Models.advanceRefresh] at hs
    split at hs
    · rename_i allowNetwork hphase
      cases hs
      refine h.setRefresh hr _ (fun hl => ?_) fun _ entry heq => ?_
      · rw [hphase] at hl
        cases hl
      · cases heq
        exact .inr rfl
    · cases hs
  | refreshModels r' =>
    rw [Models.advanceRefresh] at hs
    split at hs
    · rename_i allowNetwork entry hphase hkind
      have hnotLast : refresh.phase.isLast = false := by rw [hphase]; rfl
      split at hs
      · rename_i entry
        cases hs
        refine h.publish hr (fun _ => ⟨.inl ⟨entry, rfl⟩, hnotLast⟩)
          (fun _ hpersist => absurd rfl hpersist) (fun hl => ?_)
          (fun _ _ heq => by cases heq) fun hcreated _ hcurrent => ?_
        · rw [hnotLast] at hl
          cases hl
        · exact ⟨entry, rfl, h.views.read r refresh allowNetwork entry hr hcreated hphase hcurrent⟩
      · cases hs
        refine h.setRefresh' hr _ (fun hl => ?_) (afterRestore_ne_read refresh allowNetwork)
        rw [hnotLast] at hl
        cases hl
    · rename_i allowNetwork entry hphase hkind
      cases hs
      refine h.setRefresh' hr _ (fun hl => ?_) fun _ _ heq => by cases heq
      rw [hphase] at hl
      cases hl
    · cases hs
  | restored r' =>
    rw [Models.advanceRefresh] at hs
    split at hs
    · rename_i allowNetwork i hphase
      have hl : refresh.phase.isLast = true → ∀ phase : RefreshPhase, phase.isLast = true := by
        rw [hphase]
        exact nofun
      split at hs
      · cases hs
        exact h.setRefresh' hr _ (fun hlast => hl hlast _) (afterRestore_ne_read refresh _)
      · cases hs
        exact h.setRefresh' hr _ (fun hlast => hl hlast _) (afterPhase_ne_read refresh _)
      · cases hs
    · cases hs
  | fetched r' models checkedAt =>
    rw [Models.advanceRefresh] at hs
    split at hs
    · rename_i hphase
      have hnotLast : refresh.phase.isLast = false := by rw [hphase]; rfl
      split at hs
      · cases hs
        refine h.setRefresh' hr _ (fun hl => ?_) (afterPhase_ne_read refresh _)
        rfl
      · cases hs
        exact h.publish hr
          (fun _ => ⟨.inr ⟨{ models, checkedAt := some checkedAt }, rfl⟩, hnotLast⟩)
          (fun _ _ => rfl) (fun _ => rfl) (fun _ _ heq => by cases heq)
          fun _ hpersist => by cases hpersist
    · cases hs
  | returned r' =>
    rw [Models.advanceRefresh] at hs
    split at hs
    · split at hs
      · cases hs
        exact h.setRefresh' hr _ (fun _ => rfl) (afterPhase_ne_read refresh _)
      · cases hs
    · rename_i allowNetwork hphase
      cases hs
      refine h.setRefresh' hr _ (fun hl => ?_) (afterPhase_ne_read refresh _)
      rw [hphase] at hl
      cases hl
    · cases hs
  | resolved r' configured =>
    rw [Models.advanceRefresh] at hs
    split at hs
    · rename_i hphase
      cases hs
      refine h.setRefresh' hr _ (fun hl => ?_) fun _ _ => ?_
      · rw [hphase] at hl
        cases hl
      · split <;> exact nofun
    · cases hs
  | fails r' =>
    rw [Models.advanceRefresh] at hs
    split at hs
    · cases hs
      exact h.setRefresh' hr _ (fun _ => rfl) fun _ _ heq => by cases heq
    · cases hs
  | leaves r' =>
    rw [Models.advanceRefresh] at hs
    split at hs
    · split at hs
      · cases hs
        exact h.moves (.same rfl) rfl rfl rfl rfl rfl rfl
      · cases hs
        exact h
    · cases hs
  | publish r' publication =>
    rw [Models.advanceRefresh] at hs
    split at hs
    · cases hs
    · rename_i hkind _
      cases hs
      exact h.handwritten hr hkind publication
    · cases hs
  | _ => cases hs

theorem Inv.advancePublishing (h : s.Inv stored) (hi : s.publishings[i]? = some publishing)
    (hs : s.advancePublishing i publishing label = some s') : s'.Inv stored := by
  cases label with
  | check i' =>
    rw [Models.advancePublishing] at hs
    split at hs
    · rename_i hphase
      have hopen : publishing.phase.isSettled = false := by rw [hphase]; rfl
      split at hs
      · rename_i hprevious
        have hready : ∀ (k : Nat) (earlier : Publishing), k < i → s.publishings[k]? = some earlier →
            earlier.provider.id = publishing.provider.id → earlier.phase.isSettled = true :=
          fun k earlier hk hearlier hid => h.queue.ready hi hprevious hk hearlier hid
        split at hs
        · rename_i hcurrent
          split at hs
          · cases hs
            exact h.setPhase hi hopen hready nofun nofun nofun
          · rename_i hpersist
            cases hs
            exact h.update hi hready hcurrent (.inl ⟨hphase, hpersist⟩)
        · cases hs
          exact h.setPhase hi hopen hready nofun nofun nofun
      · cases hs
    · cases hs
  | write i' =>
    rw [Models.advancePublishing] at hs
    split at hs
    · rename_i entry hphase hpersist
      cases hs
      exact h.wrote hi hphase hpersist
    · cases hs
  | writeFails i' =>
    rw [Models.advancePublishing] at hs
    split at hs
    · rename_i hphase
      cases hs
      exact h.setPhase hi (by rw [hphase]; rfl) (h.queue.behind hi (by rw [hphase]; exact nofun))
        nofun nofun nofun
    · cases hs
  | conclude i' =>
    rw [Models.advancePublishing] at hs
    split at hs
    · rename_i hphase
      have hbehind := h.queue.behind hi (by rw [hphase]; exact nofun)
      split at hs
      · rename_i hcurrent
        cases hs
        exact h.update hi hbehind hcurrent (.inr hphase)
      · cases hs
        exact h.setPhase hi (by rw [hphase]; rfl) hbehind nofun nofun nofun
    · cases hs
  | forget i' =>
    rw [Models.advancePublishing] at hs
    split at hs
    · rename_i htail
      cases hs
      rw [Bool.and_eq_true, beq_iff_eq] at htail
      exact ⟨h.queue.forget hi htail.1 htail.2,
        h.programs.moves (.same rfl) rfl rfl, h.history.congr rfl rfl rfl rfl rfl,
        h.views.moves (.same rfl) rfl rfl rfl rfl⟩
    · cases hs
  | _ => cases hs

theorem Inv.step (h : s.Inv stored) (hs : s.step label = some s') : s'.Inv stored := by
  cases label with
  | setProvider provider =>
    cases hs
    exact (h.supersede provider.id).moves (.same rfl) rfl rfl rfl rfl rfl rfl
  | deleteProvider id =>
    cases hs
    exact (h.supersede id).moves (.same rfl) rfl rfl rfl rfl rfl rfl
  | clearProviders =>
    cases hs
    have hcleared : ∀ (ids : List String) (s : Models), s.Inv stored →
        (ids.foldl supersedeProviderRefresh s).Inv stored := by
      intro ids
      induction ids with
      | nil => exact fun s h => h
      | cons id ids ih => exact fun s h => ih _ (h.supersede id)
    exact (hcleared s.clearedIds s h).moves (.same rfl) rfl rfl rfl rfl rfl rfl
  | refresh selected allowNetwork =>
    cases hs
    have hbegun : ∀ (providers : List Provider) (s₀ : Models), s₀.Inv stored →
        (providers.foldl (Models.beginProviderRefresh s.calls allowNetwork) s₀).Inv stored := by
      intro providers
      induction providers with
      | nil => exact fun s₀ h => h
      | cons provider providers ih =>
        exact fun s₀ h => ih _ (h.beginProviderRefresh s.calls allowNetwork provider)
    exact (hbegun (s.refreshable selected) s h).moves (.same rfl) rfl rfl rfl rfl rfl rfl
  | abort call =>
    cases hs
    exact h.moves (.abort s call) rfl rfl rfl rfl rfl rfl
  | readStored r | refreshModels r | restored r | fetched r _ _ | returned r | resolved r _
  | fails r | leaves r | publish r _ =>
    obtain ⟨refresh, hr, hs⟩ := Option.bind_eq_some_iff.mp hs
    exact h.advanceRefresh hr hs
  | check i | write i | writeFails i | conclude i | forget i =>
    obtain ⟨publishing, hi, hs⟩ := Option.bind_eq_some_iff.mp hs
    exact h.advancePublishing hi hs

/-- The states of all runs of a collection. -/
abbrev Reaches (stored : String → Option ModelsStoreEntry) : Models → Prop :=
  Run (· = create stored) step fun _ _ => True

theorem Reaches.inv (h : Reaches stored s) : s.Inv stored := by
  refine Run.invariant ?_ (fun s label s' hinv _ hs => hinv.step hs) h
  rintro s rfl
  exact inv_create stored

/-- The last publication that was written, if any, has returned true. -/
def LastWritePublished (s : Models) (id : String) : Prop :=
  ∀ k entry, lastWrite s.events id = some (k, entry) → s.result k = some (some true)

/-- What holds of the publications of a collection. -/
structure Publications (s : Models) : Prop where
  /-- No update runs once the generation of its provider is superseded. -/
  guarded : ∀ newer older provider i generation update,
    s.events = newer ++ .published provider i generation update :: older →
    ∀ generation', .superseded provider.id generation' ∈ older → generation' ≤ generation
  /-- What a provider lists is the update that ran last. -/
  updates : ∀ provider, s.getModels provider =
    currentModels provider.models ((lastUpdate s.events provider).getD [])
  returned : ∀ provider i generation update, .published provider i generation update ∈ s.events →
    ∃ publishing, s.publishings[i]? = some publishing ∧ publishing.provider = provider ∧
      publishing.generation = generation ∧ publishing.publication.update = update ∧
      publishing.phase = .settled (some true)
  /-- One after another, in the order in which they were called for. -/
  serial : ∀ (i j : Nat) (earlier later : Publishing), i < j →
    s.publishings[i]? = some earlier → s.publishings[j]? = some later →
    earlier.provider.id = later.provider.id → later.phase ≠ .queued →
    earlier.phase.isSettled = true
  /-- The store has what the last write wrote, which is what the provider of the
  last publication lists. -/
  agrees : ∀ provider i update, provider.refreshModels = .created →
    lastPublished s.events provider.id = some (provider, i, update) →
    s.LastWritePublished provider.id →
    ∃ entry, s.modelsStore provider.id = some entry ∧
      (∀ k entry', lastWrite s.events provider.id = some (k, entry') → entry' = some entry) ∧
      (s.getModels provider = currentModels provider.models entry.models ∨
        s.getModels provider = currentModels provider.models (provider.restored entry))

theorem Inv.agrees (h : s.Inv stored) {provider : Provider} {update : Option (List Model)}
    (hcreated : provider.refreshModels = .created)
    (hlast : lastPublished s.events provider.id = some (provider, i, update))
    (hwritten : s.LastWritePublished provider.id) :
    ∃ entry, s.modelsStore provider.id = some entry ∧
      (∀ k entry', lastWrite s.events provider.id = some (k, entry') → entry' = some entry) ∧
      (s.getModels provider = currentModels provider.models entry.models ∨
        s.getModels provider = currentModels provider.models (provider.restored entry)) := by
  rcases h.views.agrees provider.id provider i update hlast hcreated with
    ⟨entry, hupdate, hstore⟩ | ⟨k, entry, publishing, hk, hpublishing, -, hphase, -⟩
  · refine ⟨entry, hstore, ?_, ?_⟩
    · intro k entry' hk
      have heq := h.history.store provider.id
      rw [hk, hstore] at heq
      exact heq.symm
    · rcases hupdate with rfl | rfl
      · refine .inl ?_
        rw [getModels, h.history.memory, lastUpdate_of_lastPublished hlast]
        rfl
      · refine .inr ?_
        rw [getModels, h.history.memory, lastUpdate_of_lastPublished hlast]
        rfl
  · have hresult := hwritten k entry hk
    unfold result at hresult
    rw [hpublishing] at hresult
    cases hp : publishing.phase with
    | settled value =>
      simp only [hp] at hresult
      cases hresult
      exact absurd hp hphase
    | _ =>
      simp only [hp] at hresult
      cases hresult

end Models

/-- **Publications are serial and guarded by their generation**, and the store
and the list agree unless the last write was superseded. -/
theorem publications_hold (stored : String → Option ModelsStoreEntry) (s : Models)
    (h : Models.Reaches stored s) : s.Publications where
  guarded := h.inv.history.guarded
  updates := fun provider => by rw [Models.getModels, h.inv.history.memory]
  returned := h.inv.history.published
  serial := h.inv.queue.serial
  agrees := fun _ _ _ hcreated hlast hwritten => h.inv.agrees hcreated hlast hwritten

/-! ## Catalogs that differ -/

/-- Where no publication of a current provider is in progress, the store holds
the catalog whose publication last returned true, and the provider lists it. -/
def Models.Lists (s : Models) : Prop :=
  ∀ provider, s.providers.get? provider.id = some provider →
    (∀ publishing ∈ s.publishings, publishing.provider.id = provider.id →
      publishing.phase.isSettled = true) →
    ∀ owner i models, lastPublished s.events provider.id = some (owner, i, some models) →
      (∃ entry, s.modelsStore provider.id = some entry ∧ entry.models = models) ∧
        s.dynamicModels provider = models

def sampleProvider (object : Nat) : Provider where
  id := "p"
  object
  refreshModels := .created

def sampleModel (id : String) : Model := { id, provider := "p" }

/-- One refresh that fetches and publishes a catalog. -/
def sampleRefresh : List ModelsStep :=
  [.setProvider (sampleProvider 0), .refresh none true, .readStored 0, .refreshModels 0,
    .resolved 0 true, .readStored 0, .refreshModels 0, .fetched 0 [sampleModel "a"] 1,
    .check 0, .write 0, .conclude 0, .returned 0, .leaves 0]

/-- The next one is superseded between its write and its second check. -/
def sampleSuperseded : List ModelsStep :=
  sampleRefresh ++ [.refresh none true, .readStored 1, .refreshModels 1, .check 1, .restored 1,
      .resolved 1 true, .readStored 1, .refreshModels 1, .check 2, .restored 1,
      .fetched 1 [sampleModel "b"] 2, .check 3, .write 3, .setProvider (sampleProvider 0),
      .conclude 3]

/-- The provider is replaced after it has published. -/
def sampleReplaced : List ModelsStep :=
  sampleRefresh ++ [.setProvider (sampleProvider 1)]

theorem publications_hold_sample :
    (Run.afterAll Models.step (.create fun _ => none) sampleRefresh).Publications :=
  publications_hold (fun _ => none) _ (Run.of_check (.init rfl) (by decide))

theorem catalogs_differ :
    (¬ ∀ (stored : String → Option ModelsStoreEntry) (s : Models),
      Models.Reaches stored s → s.Lists) ∧
    ¬ ∀ (stored : String → Option ModelsStoreEntry) (s : Models),
      Models.Reaches stored s → (∀ id, s.LastWritePublished id) → s.Lists := by
  refine ⟨?_, ?_⟩
  · intro h
    have hlists := h (fun _ => none)
      (Run.afterAll Models.step (.create fun _ => none) sampleSuperseded)
      (Run.of_check (.init rfl) (by decide))
    obtain ⟨⟨entry, hstore, hmodels⟩, -⟩ :=
      hlists (sampleProvider 0) (by decide) (by decide) (sampleProvider 0) 2 [sampleModel "a"]
        (by decide)
    have hb := congrArg (Option.map ModelsStoreEntry.models) hstore
    rw [Option.map_some, hmodels] at hb
    exact absurd hb (by decide)
  · intro h
    have hlists := h (fun _ => none)
      (Run.afterAll Models.step (.create fun _ => none) sampleReplaced)
      (Run.of_check (.init rfl) (by decide)) ?_
    · have hmemory := (hlists (sampleProvider 1) (by decide) (by decide) (sampleProvider 0) 0
        [sampleModel "a"] (by decide)).2
      exact absurd hmemory (by decide)
    · intro id k entry hlast
      have hevents : (Run.afterAll Models.step (.create fun _ => none) sampleReplaced).events =
          [.superseded "p" 3, .published (sampleProvider 0) 0 2 (some [sampleModel "a"]),
            .wrote "p" 0 (some { models := [sampleModel "a"], checkedAt := some 1 }),
            .superseded "p" 2, .superseded "p" 1] := by decide
      rw [hevents, lastWrite_superseded, lastWrite_published, lastWrite_wrote] at hlast
      by_cases hid : "p" = id
      · rw [if_pos hid] at hlast
        cases hlast
        decide
      · rw [if_neg hid] at hlast
        cases hlast

end ReflectivePi.Ai
