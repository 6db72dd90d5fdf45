import Mathlib.Logic.Function.Basic
import ReflectivePi.Lib.InsertionMap

/-!
# Ai — the models collection

Providers whose catalogs are refreshed in the background. Every refresh has a
generation of its provider; a newer refresh, or a change of the provider,
supersedes it. What a refresh publishes is first written to the models store
and then shown in memory, and the generation is checked before each of the
two. The publications of a provider wait for one another in a chain.
-/

namespace ReflectivePi.Ai

structure Model where
  id : String
  provider : String
  deriving DecidableEq

structure ModelsStoreEntry where
  models : List Model
  checkedAt : Option Nat := none
  deriving DecidableEq

/-- `persist` is `some none` where the stored catalog is to be deleted. -/
structure ModelsPublication where
  persist : Option (Option ModelsStoreEntry) := none
  /-- The catalog that the update shows. -/
  update : Option (List Model) := none

/-- Where the `refreshModels` of a provider comes from. -/
inductive RefreshModels where
  /-- There is none. -/
  | static
  /-- `createProvider` with `fetchModels` -/
  | created
  /-- Any other; it may publish what it wants. -/
  | handwritten
  deriving DecidableEq

/-- A provider object. Two of one id differ in `object`. -/
structure Provider where
  id : String
  object : Nat
  models : List Model := []
  refreshModels : RefreshModels
  deriving DecidableEq

/-- A model that is listed already is replaced where it stands. -/
def mergeModel (merged : List Model) (model : Model) : List Model :=
  match merged.findIdx? (fun entry => entry.id == model.id) with
  | some index => merged.set index model
  | none => merged ++ [model]

/-- `currentModels` of `createProvider`. -/
def currentModels (baselineModels dynamicModels : List Model) : List Model :=
  dynamicModels.foldl mergeModel baselineModels

def Provider.restored (provider : Provider) (stored : ModelsStoreEntry) : List Model :=
  stored.models.filter fun model => model.provider == provider.id

/-! ## Publications and refreshes -/

inductive PublishPhase where
  /-- `await previous` -/
  | queued
  | writing
  /-- The store has done it, and the second check is to come. -/
  | written
  /-- What the promise settles with; `none` where it rejects. -/
  | settled (result : Option Bool)

def PublishPhase.isSettled : PublishPhase → Bool
  | .settled _ => true
  | _ => false

structure Publishing where
  provider : Provider
  refresh : Nat
  generation : Nat
  publication : ModelsPublication
  previous : Option Nat
  phase : PublishPhase := .queued

inductive RefreshPhase where
  /-- The credential, then `modelsStore.read`. -/
  | reading (allowNetwork : Bool)
  /-- The store has answered. -/
  | read (allowNetwork : Bool) (stored : Option ModelsStoreEntry)
  /-- `refreshModels` of a handwritten provider -/
  | running (allowNetwork : Bool)
  | restoring (allowNetwork : Bool) (publication : Nat)
  | fetching
  | publishing (publication : Nat)
  | resolving
  | finished
  deriving DecidableEq

structure Refresh where
  provider : Provider
  call : Nat
  allowNetwork : Bool
  generation : Nat
  aborted : Bool := false
  phase : RefreshPhase := .reading false

/-- After `runProviderRefreshPhase`. -/
def Refresh.afterPhase (refresh : Refresh) (allowNetwork : Bool) : RefreshPhase :=
  if allowNetwork || !refresh.allowNetwork || refresh.aborted then .finished else .resolving

/-- In `refreshModels`, after what was stored is restored. -/
def Refresh.afterRestore (refresh : Refresh) (allowNetwork : Bool) : RefreshPhase :=
  if !allowNetwork || refresh.aborted then refresh.afterPhase allowNetwork else .fetching

inductive ModelsEvent where
  | superseded (providerId : String) (generation : Nat)
  | wrote (providerId : String) (publication : Nat) (entry : Option ModelsStoreEntry)
  /-- The update has run, and the publication returns true. -/
  | published (provider : Provider) (publication generation : Nat) (update : Option (List Model))
  deriving DecidableEq

structure Models where
  providers : InsertionMap String Provider := .empty
  /-- 0 where the map has no entry. -/
  refreshGenerations : String → Nat := fun _ => 0
  refreshControllers : String → Option Nat := fun _ => none
  publicationChains : String → Option Nat := fun _ => none
  modelsStore : String → Option ModelsStoreEntry
  /-- `dynamicModels` of a provider object -/
  dynamicModels : Provider → List Model := fun _ => []
  refreshes : List Refresh := []
  publishings : List Publishing := []
  calls : Nat := 0
  /-- The newest is first. -/
  events : List ModelsEvent := []

inductive ModelsStep where
  | setProvider (provider : Provider)
  | deleteProvider (id : String)
  | clearProviders
  | refresh (providers : Option (List String)) (allowNetwork : Bool)
  /-- The signal of a caller aborts. -/
  | abort (call : Nat)
  | readStored (refresh : Nat)
  | refreshModels (refresh : Nat)
  | restored (refresh : Nat)
  | fetched (refresh : Nat) (models : List Model) (checkedAt : Nat)
  | returned (refresh : Nat)
  | resolved (refresh : Nat) (configured : Bool)
  | fails (refresh : Nat)
  | leaves (refresh : Nat)
  | publish (refresh : Nat) (publication : ModelsPublication)
  | check (publication : Nat)
  | write (publication : Nat)
  | writeFails (publication : Nat)
  | conclude (publication : Nat)
  | forget (publication : Nat)

namespace Models

def setRefresh (s : Models) (r : Nat) (refresh : Refresh) : Models :=
  { s with refreshes := s.refreshes.set r refresh }

def setPublishing (s : Models) (i : Nat) (publishing : Publishing) : Models :=
  { s with publishings := s.publishings.set i publishing }

def log (s : Models) (event : ModelsEvent) : Models :=
  { s with events := event :: s.events }

def abortRefresh (s : Models) (r : Nat) : Models :=
  match s.refreshes[r]? with
  | some refresh => s.setRefresh r { refresh with aborted := true }
  | none => s

def supersedeProviderRefresh (s : Models) (providerId : String) : Models :=
  let generation := s.refreshGenerations providerId + 1
  let s := { s with
    refreshGenerations := Function.update s.refreshGenerations providerId generation }.log
      (.superseded providerId generation)
  match s.refreshControllers providerId with
  | some previous =>
    { s with
      refreshControllers := Function.update s.refreshControllers providerId none }.abortRefresh
        previous
  | none => s

def beginProviderRefresh (call : Nat) (allowNetwork : Bool) (s : Models) (provider : Provider) :
    Models :=
  let s := s.supersedeProviderRefresh provider.id
  { s with
    refreshControllers := Function.update s.refreshControllers provider.id (some s.refreshes.length)
    refreshes := s.refreshes ++
      [{ provider, call, allowNetwork, generation := s.refreshGenerations provider.id }] }

def newPublishing (s : Models) (r : Nat) (refresh : Refresh)
    (publication : ModelsPublication) : Publishing where
  provider := refresh.provider
  refresh := r
  generation := refresh.generation
  publication
  previous := s.publicationChains refresh.provider.id

def publishProviderModels (s : Models) (r : Nat) (refresh : Refresh)
    (publication : ModelsPublication) : Models :=
  { s with
    publishings := s.publishings ++ [s.newPublishing r refresh publication]
    publicationChains :=
      Function.update s.publicationChains refresh.provider.id (some s.publishings.length) }

/-- `signal.aborted`, for the signal that a publication was given. -/
def signalAborted (s : Models) (r : Nat) : Bool :=
  match s.refreshes[r]? with
  | some refresh => refresh.aborted
  | none => false

/-- The check that is made before the write and again before the update. -/
def isCurrent (s : Models) (publishing : Publishing) : Bool :=
  !s.signalAborted publishing.refresh
    && s.refreshGenerations publishing.provider.id == publishing.generation

def hasSettled (s : Models) (i : Nat) : Bool :=
  match s.publishings[i]? with
  | some publishing => publishing.phase.isSettled
  | none => false

/-- `publication.update?.()`, and the publication returns true. -/
def update (s : Models) (i : Nat) (publishing : Publishing) : Models :=
  let s := (s.setPublishing i { publishing with phase := .settled (some true) }).log
    (.published publishing.provider i publishing.generation publishing.publication.update)
  match publishing.publication.update with
  | some models =>
    { s with dynamicModels := Function.update s.dynamicModels publishing.provider models }
  | none => s

def advancePublishing (s : Models) (i : Nat) (publishing : Publishing) :
    ModelsStep → Option Models
  | .check _ =>
    match publishing.phase with
    | .queued =>
      if publishing.previous.all s.hasSettled then
        if s.isCurrent publishing then
          match publishing.publication.persist with
          | some _ => some (s.setPublishing i { publishing with phase := .writing })
          -- no await lies between the two checks
          | none => some (s.update i publishing)
        else some (s.setPublishing i { publishing with phase := .settled (some false) })
      else none
    | _ => none
  | .write _ =>
    match publishing.phase, publishing.publication.persist with
    | .writing, some entry =>
      some ({ s.setPublishing i { publishing with phase := .written } with
        modelsStore := Function.update s.modelsStore publishing.provider.id entry }.log
          (.wrote publishing.provider.id i entry))
    | _, _ => none
  | .writeFails _ =>
    match publishing.phase with
    | .writing => some (s.setPublishing i { publishing with phase := .settled none })
    | _ => none
  | .conclude _ =>
    match publishing.phase with
    | .written =>
      if s.isCurrent publishing then some (s.update i publishing)
      else some (s.setPublishing i { publishing with phase := .settled (some false) })
    | _ => none
  | .forget _ =>
    if publishing.phase.isSettled && s.publicationChains publishing.provider.id == some i then
      some { s with
        publicationChains := Function.update s.publicationChains publishing.provider.id none }
    else none
  | _ => none

/-- What the promise of a publication has settled with. -/
def result (s : Models) (i : Nat) : Option (Option Bool) :=
  match s.publishings[i]? with
  | some publishing =>
    match publishing.phase with
    | .settled result => some result
    | _ => none
  | none => none

/-- Whether what a refresh awaits may reject. -/
def mayFail (s : Models) (refresh : Refresh) : Bool :=
  match refresh.phase with
  | .finished | .read _ _ => false
  | .restoring _ i | .publishing i => refresh.aborted || s.result i == some none
  | _ => true

def advanceRefresh (s : Models) (r : Nat) (refresh : Refresh) : ModelsStep → Option Models
  | .readStored _ =>
    match refresh.phase with
    | .reading allowNetwork => some (s.setRefresh r
        { refresh with phase := .read allowNetwork (s.modelsStore refresh.provider.id) })
    | _ => none
  | .refreshModels _ =>
    match refresh.phase, refresh.provider.refreshModels with
    | .read allowNetwork stored, .created =>
      match stored with
      | some entry =>
        some ((s.publishProviderModels r refresh
          { update := some (refresh.provider.restored entry) }).setRefresh r
            { refresh with phase := .restoring allowNetwork s.publishings.length })
      | none => some (s.setRefresh r { refresh with phase := refresh.afterRestore allowNetwork })
    | .read allowNetwork _, _ =>
      some (s.setRefresh r { refresh with phase := .running allowNetwork })
    | _, _ => none
  | .restored _ =>
    match refresh.phase with
    | .restoring allowNetwork i =>
      match s.result i with
      | some (some true) => some (s.setRefresh r
          { refresh with phase := refresh.afterRestore allowNetwork })
      | some (some false) => some (s.setRefresh r
          { refresh with phase := refresh.afterPhase allowNetwork })
      | _ => none
    | _ => none
  | .fetched _ models checkedAt =>
    match refresh.phase with
    | .fetching =>
      if refresh.aborted then
        some (s.setRefresh r { refresh with phase := refresh.afterPhase true })
      else
        some ((s.publishProviderModels r refresh
          { persist := some (some { models, checkedAt := some checkedAt })
            update := some models }).setRefresh r
              { refresh with phase := .publishing s.publishings.length })
    | _ => none
  | .returned _ =>
    match refresh.phase with
    | .publishing i =>
      match s.result i with
      | some (some _) => some (s.setRefresh r { refresh with phase := refresh.afterPhase true })
      | _ => none
    | .running allowNetwork => some (s.setRefresh r
        { refresh with phase := refresh.afterPhase allowNetwork })
    | _ => none
  | .resolved _ configured =>
    match refresh.phase with
    | .resolving => some (s.setRefresh r
        { refresh with phase := if configured then .reading true else .finished })
    | _ => none
  | .fails _ =>
    if s.mayFail refresh then some (s.setRefresh r { refresh with phase := .finished })
    else none
  | .leaves _ =>
    if refresh.aborted || refresh.phase == .finished then
      if s.refreshControllers refresh.provider.id == some r then
        some { s with
          refreshControllers := Function.update s.refreshControllers refresh.provider.id none }
      else some s
    else none
  | .publish _ publication =>
    -- a handwritten provider may also call it later on
    match refresh.provider.refreshModels, refresh.phase with
    | .handwritten, .reading false => none
    | .handwritten, _ => some (s.publishProviderModels r refresh publication)
    | _, _ => none
  | _ => none

/-- The providers that `refresh` begins with. -/
def refreshable (s : Models) (selected : Option (List String)) : List Provider :=
  s.providers.values.filter fun provider =>
    provider.refreshModels != .static && selected.all fun ids => ids.contains provider.id

def clearedIds (s : Models) : List String :=
  (s.providers.keys ++ s.refreshes.filterMap fun refresh =>
    if (s.refreshControllers refresh.provider.id).isSome then some refresh.provider.id
    else none).dedup

def step (s : Models) (label : ModelsStep) : Option Models :=
  match label with
  | .setProvider provider =>
    let s := s.supersedeProviderRefresh provider.id
    some { s with providers := s.providers.set provider.id provider }
  | .deleteProvider id =>
    let s := s.supersedeProviderRefresh id
    some { s with providers := s.providers.delete id }
  | .clearProviders =>
    let s := s.clearedIds.foldl supersedeProviderRefresh s
    some { s with providers := .empty }
  | .refresh selected allowNetwork =>
    let s' := (s.refreshable selected).foldl (beginProviderRefresh s.calls allowNetwork) s
    some { s' with calls := s.calls + 1 }
  | .abort call => some { s with
      refreshes := s.refreshes.map fun refresh =>
        if refresh.call = call then { refresh with aborted := true } else refresh }
  | .readStored r | .refreshModels r | .restored r | .fetched r _ _ | .returned r
  | .resolved r _ | .fails r | .leaves r | .publish r _ =>
    s.refreshes[r]?.bind fun refresh => s.advanceRefresh r refresh label
  | .check i | .write i | .writeFails i | .conclude i | .forget i =>
    s.publishings[i]?.bind fun publishing => s.advancePublishing i publishing label

/-- A collection with what its store holds from before. -/
def create (stored : String → Option ModelsStoreEntry) : Models := { modelsStore := stored }

/-- The models that a created provider lists. -/
def getModels (s : Models) (provider : Provider) : List Model :=
  currentModels provider.models (s.dynamicModels provider)

end Models

end ReflectivePi.Ai
