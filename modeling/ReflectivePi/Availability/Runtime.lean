import Mathlib.Data.List.Nodup

/-!
# Availability — Runtime

The snapshot of a model runtime: which providers have credentials and which
models they offer. Full passes and passes over one provider read what they
need at their own pace, and publish it if no other pass has made them obsolete.
What a provider would answer at the moment is kept as `world`; a pass asks each
provider four questions, each at a time of its own.
-/

namespace ReflectivePi.Availability

variable {P A M K : Type}

/-- What is read of a provider: the answer of `checkAuth`, whether a credential is
stored, the models of the provider and its filter under the present credential.
Models have keys of their own, and a filter leaves models out. -/
structure ProviderData (A M K : Type) (key : M → K) where
  check : Option A
  stored : Bool
  catalog : List M
  filterModels : List M → List M
  distinct : (catalog.map key).Nodup
  selects : ∀ models, (filterModels models).Sublist models

/-- What a pass asks: `getAvailable` checks the credential and then takes the
models, `checkAuth` checks it again, and the credentials are listed or read. -/
inductive Question where
  | available
  | models
  | auth
  | stored
  deriving DecidableEq

inductive Scope (P : Type) where
  | full
  | provider (id : P)
  deriving DecidableEq

variable {key : M → K}

/-- A pass, with the data it has found for its questions. -/
structure Pass (P A M K : Type) (key : M → K) where
  scope : Scope P
  seq : Nat
  answers : P → Question → Option (ProviderData A M K key)
  running : Bool

/-- What a pass comes to for one provider. -/
structure Answer (A M : Type) where
  auth : Option A
  stored : Bool
  available : List M

/-- The snapshot by provider. -/
structure Snapshot (P A M : Type) where
  all : P → List M
  available : P → List M
  configuredProviders : P → Bool
  storedProviders : P → Bool
  auth : P → Option A

/-- An operation: of one credential (`login`, `logout`, `setRuntimeApiKey`,
`removeRuntimeApiKey`) or a refresh of all or of some providers. -/
inductive Kind (P : Type) where
  | credential (id : P)
  | refresh
  | refreshProviders (ids : List P)
  deriving DecidableEq

inductive OpPhase where
  | queued
  | working
  | published
  deriving DecidableEq

structure Op (P : Type) where
  kind : Kind P
  phase : OpPhase

structure ModelRuntime (P A M K : Type) (key : M → K) where
  world : P → ProviderData A M K key
  snapshot : Snapshot P A M
  availabilityRefreshSeq : Nat := 0
  providerAvailabilitySeq : P → Option Nat := fun _ => none
  passes : List (Pass P A M K key) := []
  ops : List (Op P) := []

/-- The models that a provider offers: none without credentials. -/
def ProviderData.offered (data : ProviderData A M K key) : List M :=
  if data.check.isSome then data.filterModels data.catalog else []

def ProviderData.answer (data : ProviderData A M K key) : Answer A M :=
  ⟨data.check, data.stored, data.offered⟩

/-- The answer that the data found for the four questions amounts to. -/
def resultOf (answers : Question → Option (ProviderData A M K key)) : Option (Answer A M) := do
  let checked ← answers .available
  let models ← answers .models
  let auth ← answers .auth
  let stored ← answers .stored
  return ⟨auth.check, stored.stored,
    if checked.check.isSome then checked.filterModels models.catalog else []⟩

variable [DecidableEq P] [DecidableEq K]

def Kind.covers (kind : Kind P) (q : P) : Bool :=
  match kind with
  | .credential id => q = id
  | .refresh => true
  | .refreshProviders ids => q ∈ ids

/-- `all.flatMap((model) => availableById.get(key) ?? [])` for one provider. -/
def keepAvailable (key : M → K) (all available : List M) : List M :=
  all.filterMap fun model => (available.filter fun other => key other = key model).getLast?

namespace ModelRuntime

def updateModelSnapshot (s : ModelRuntime P A M K key) : ModelRuntime P A M K key :=
  { s with
    snapshot := { s.snapshot with
        all := fun q => (s.world q).catalog
        available := fun q =>
          if s.snapshot.configuredProviders q then (s.world q).catalog else [] } }

/-- `queueAvailabilityRefresh`: a full pass makes every pass before it obsolete. -/
def queueAvailabilityRefresh (s : ModelRuntime P A M K key) : ModelRuntime P A M K key :=
  let seq := s.availabilityRefreshSeq + 1
  { s with
    availabilityRefreshSeq := seq
    providerAvailabilitySeq := fun q => (s.providerAvailabilitySeq q).map (· + 1)
    passes := s.passes ++ [⟨.full, seq, fun _ _ => none, true⟩] }

/-- `refreshProviderAvailability`: a pass over a provider makes the full passes
obsolete, and the earlier passes over the provider. -/
def refreshProviderAvailability (s : ModelRuntime P A M K key) (id : P) :
    ModelRuntime P A M K key :=
  let providerSeq := (s.providerAvailabilitySeq id).getD 0 + 1
  { s with
    availabilityRefreshSeq := s.availabilityRefreshSeq + 1
    providerAvailabilitySeq := Function.update s.providerAvailabilitySeq id (some providerSeq)
    passes := s.passes ++ [⟨.provider id, providerSeq, fun _ _ => none, true⟩] }

/-- The end of `runAvailabilityRefresh`. -/
def publishFull (s : ModelRuntime P A M K key) (pass : Pass P A M K key) :
    ModelRuntime P A M K key :=
  if pass.seq ≠ s.availabilityRefreshSeq then s
  else
    let result := fun q => resultOf (pass.answers q)
    { s with
      snapshot :=
        { all := fun q => (s.world q).catalog
          available := fun q => ((result q).map Answer.available).getD []
          configuredProviders := fun q => ((result q).bind Answer.auth).isSome
          storedProviders := fun q => ((result q).map Answer.stored).getD false
          auth := fun q => (result q).bind Answer.auth } }

/-- The end of `refreshProviderAvailability`. -/
def publishProvider (s : ModelRuntime P A M K key) (pass : Pass P A M K key) (id : P) :
    ModelRuntime P A M K key :=
  if s.providerAvailabilitySeq id ≠ some pass.seq then s
  else
    match resultOf (pass.answers id) with
    | none => s
    | some result =>
      { s with
        snapshot :=
          { all := fun q => (s.world q).catalog
            available := fun q =>
              keepAvailable key (s.world q).catalog
                (if q = id then result.available else s.snapshot.available q)
            configuredProviders :=
              Function.update s.snapshot.configuredProviders id result.auth.isSome
            storedProviders := Function.update s.snapshot.storedProviders id result.stored
            auth := Function.update s.snapshot.auth id result.auth } }

/-! ## Operations -/

/-- `enqueueCredentialOperation`: an operation waits for those before it on the
same provider. That it waits for their passes as well is left open. -/
def mayBegin (s : ModelRuntime P A M K key) (i : Nat) : Bool :=
  match s.ops[i]? with
  | some ⟨.credential id, .queued⟩ =>
    (s.ops.take i).all fun op => op.kind ≠ .credential id || op.phase = .published
  | some ⟨_, .queued⟩ => true
  | _ => false

def setPhase (s : ModelRuntime P A M K key) (i : Nat) (phase : OpPhase) :
    ModelRuntime P A M K key :=
  { s with ops := s.ops.modify i fun op => { op with phase } }

/-- A refresh composes its providers anew and updates the model snapshot before it
refreshes their models. -/
def begin (s : ModelRuntime P A M K key) (i : Nat) (kind : Kind P)
    (recomposed : P → ProviderData A M K key) : ModelRuntime P A M K key :=
  match kind with
  | .credential _ => s.setPhase i .working
  | _ =>
    { s with world := fun q => if kind.covers q then recomposed q else s.world q }
      |>.updateModelSnapshot |>.setPhase i .working

/-- The models are refreshed: the snapshot is updated and the passes start. -/
def publish (s : ModelRuntime P A M K key) (i : Nat) (kind : Kind P) : ModelRuntime P A M K key :=
  let updated := (s.setPhase i .published).updateModelSnapshot
  match kind with
  | .credential id => updated.refreshProviderAvailability id
  | .refresh => updated.queueAvailabilityRefresh
  | .refreshProviders ids => ids.eraseDups.foldl refreshProviderAvailability updated

def setPass (s : ModelRuntime P A M K key) (i : Nat)
    (f : Pass P A M K key → Pass P A M K key) : ModelRuntime P A M K key :=
  { s with passes := s.passes.modify i f }

def record (q : P) (question : Question) (data : ProviderData A M K key)
    (pass : Pass P A M K key) : Pass P A M K key :=
  { pass with
    answers := Function.update pass.answers q
      (Function.update (pass.answers q) question (some data)) }

/-- Every question of the pass has been answered. -/
def isComplete (providers : List P) (pass : Pass P A M K key) : Bool :=
  match pass.scope with
  | .full => providers.all fun q => (resultOf (pass.answers q)).isSome
  | .provider id => (resultOf (pass.answers id)).isSome

def finish (s : ModelRuntime P A M K key) (i : Nat) (pass : Pass P A M K key) :
    ModelRuntime P A M K key :=
  let ended := s.setPass i fun pass => { pass with running := false }
  match pass.scope with
  | .full => ended.publishFull pass
  | .provider id => ended.publishProvider pass id

end ModelRuntime

/-- A step: a call, the start of the work of an operation, a change of what a
provider it works on answers, its publication, a reading or the end of a pass. -/
inductive Label (P A M K : Type) (key : M → K) where
  | call (kind : Kind P)
  | getAvailable
  | begin (op : Nat) (recomposed : P → ProviderData A M K key)
  | change (op : Nat) (q : P) (data : ProviderData A M K key)
  | publish (op : Nat)
  | read (pass : Nat) (q : P) (question : Question)
  | finish (pass : Nat)

open ModelRuntime in
/-- The steps of a runtime with these providers. -/
def step (providers : List P) (s : ModelRuntime P A M K key) :
    Label P A M K key → Option (ModelRuntime P A M K key)
  | .call kind => some { s with ops := s.ops ++ [⟨kind, .queued⟩] }
  | .getAvailable => some s.queueAvailabilityRefresh
  | .begin i recomposed =>
    match s.ops[i]? with
    | none => none
    | some op => if s.mayBegin i then some (s.begin i op.kind recomposed) else none
  | .change i q data =>
    match s.ops[i]? with
    | none => none
    | some op =>
      if op.phase = .working && op.kind.covers q then
        some { s with world := Function.update s.world q data }
      else none
  | .publish i =>
    match s.ops[i]? with
    | none => none
    | some op => if op.phase = .working then some (s.publish i op.kind) else none
  | .read i q question =>
    match s.passes[i]? with
    | none => none
    | some pass =>
      if pass.running then some (s.setPass i (record q question (s.world q))) else none
  | .finish i =>
    match s.passes[i]? with
    | none => none
    | some pass =>
      if pass.running && isComplete providers pass then some (s.finish i pass) else none

end ReflectivePi.Availability
