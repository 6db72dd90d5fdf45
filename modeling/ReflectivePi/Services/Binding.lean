import ReflectivePi.Services.Types

/-!
# Services — Binding

The binding of a keyed service: `observe`, `rebind` and `close` overlap
across their awaits, so a run is a sequence of calls, settled promises and
resumed awaits, in any order. Subscriptions are named by the `#start` that
asked for them.

A subscription counts as open until its `close` has settled, one way or
the other. What observers do with the instances is the directory's part;
here an instance is its facade.
-/

namespace ReflectivePi.Services

/-! ## The data -/

/-- How a facade is installed and updated; it reports its own errors. -/
structure FacadeOps (ω φ : Type) where
  install : ServiceInstanceSnapshot ω → Except String φ
  update : φ → String → Nat → ω → φ

/-- How far a `#start` and its subscription have come. -/
inductive Phase where
  | subscribing
  | rejected
  | opened
  | closing
  /-- The promise of `close` has settled. -/
  | closed (resolved : Bool)
  deriving DecidableEq

structure Start where
  revision : Nat
  phase : Phase
  deriving DecidableEq

/-- A `rebind` that awaits its `#reset`. -/
structure Rebind where
  revision : Nat
  bound : Bool
  /-- The subscription whose close it waits for. -/
  waits : Option Nat
  finished : Bool

structure KeyedInstance (φ : Type) where
  generation : Nat
  facade : φ

structure KeyedBinding (φ : Type) where
  serviceId : String
  instances : InsertionMap String (KeyedInstance φ)
  ready : Bool
  observerCount : Nat
  subscription : Option Nat
  starting : Option Nat
  closed : Bool
  bound : Bool
  revision : Nat
  /-- Calls of `observe` whose handlers are running. -/
  observing : Nat
  starts : List Start
  rebinds : List Rebind
  /-- What `close` waits for: the `#starting` and the subscription. -/
  closeWaits : Option (Option Nat × Option Nat)
  disposed : Bool

namespace KeyedBinding

variable {ω φ : Type}

def new (serviceId : String) (bound : Bool) : KeyedBinding φ where
  serviceId
  instances := .empty
  ready := false
  observerCount := 0
  subscription := none
  starting := none
  closed := false
  bound
  revision := 0
  observing := 0
  starts := []
  rebinds := []
  closeWaits := none
  disposed := false

/-! ## Parts of the operations -/

def setPhase (b : KeyedBinding φ) (i : Nat) (phase : Phase) : KeyedBinding φ :=
  { b with starts := b.starts.modify i fun s => { s with phase } }

/-- `#start` up to its first await. -/
def start (b : KeyedBinding φ) : KeyedBinding φ :=
  { b with
    starts := b.starts ++ [⟨b.revision, .subscribing⟩]
    starting := some b.starts.length }

/-- `#reset` up to its await: the subscription is being closed. -/
def reset (b : KeyedBinding φ) : KeyedBinding φ :=
  let b' := { b with
    instances := .empty
    ready := false
    starting := none
    subscription := none }
  match b.subscription with
  | none => b'
  | some i => b'.setPhase i .closing

/-- The close of a subscription, as an await sees it. -/
def closeResult (b : KeyedBinding φ) : Option Nat → Option Bool
  | none => some true
  | some i =>
    match b.starts[i]?.map Start.phase with
    | some (.closed resolved) => some resolved
    | _ => none

/-- Whether the promise of a `#start` has settled. -/
def settled (b : KeyedBinding φ) : Option Nat → Bool
  | none => true
  | some i =>
    match b.starts[i]?.map Start.phase with
    | some .subscribing | some .closing => false
    | _ => true

def noAddressError : String := "Keyed service instance snapshot has no address"

def repeatedGenerationError : String :=
  "Keyed service repeated a live generation"

variable (ops : FacadeOps ω φ)

def spawn (b : KeyedBinding φ) (snapshot : ServiceInstanceSnapshot ω) :
    Except String (KeyedBinding φ) :=
  match snapshot.address with
  | none => .error noAddressError
  | some address => do
    let facade ← ops.install snapshot
    let previous := b.instances.get? address.key
    if previous.map KeyedInstance.generation = some address.generation then
      .error repeatedGenerationError
    else .ok { b with
      instances := (b.instances.delete address.key).set address.key
        ⟨address.generation, facade⟩ }

/-- The loop over the snapshot; a throw keeps what was spawned before. -/
def spawnAll (b : KeyedBinding φ) :
    List (ServiceInstanceSnapshot ω) → KeyedBinding φ × Bool
  | [] => (b, true)
  | snapshot :: rest =>
    match b.spawn ops snapshot with
    | .ok b' => spawnAll b' rest
    | .error _ => (b, false)

/-- `#update`; errors are reported and change nothing. -/
def update (b : KeyedBinding φ) (u : ServiceProviderUpdate ω) : KeyedBinding φ :=
  if b.closed then b
  else
    match u with
    | .unavailable | .replaced _ => b
    | .spawned snapshot =>
      match b.spawn ops snapshot with
      | .ok b' => b'
      | .error _ => b
    | .closed address =>
      match b.instances.get? address.key with
      | none => b
      | some live =>
        if live.generation = address.generation then
          { b with instances := b.instances.delete address.key }
        else b
    | .state none _ _ _ => b
    | .state (some address) member sequence payload =>
      match b.instances.get? address.key with
      | none => b
      | some live =>
        if live.generation = address.generation then
          let facade := ops.update live.facade member sequence payload
          { b with instances := b.instances.set address.key { live with facade } }
        else b

/-- The listener a `#start` gave to the transport. -/
def deliver (b : KeyedBinding φ) (i : Nat) (u : ServiceProviderUpdate ω) : KeyedBinding φ :=
  match b.starts[i]? with
  | none => b
  | some s => if s.revision = b.revision then b.update ops u else b

/-- `#start` after its subscription was obtained. -/
def obtained (b : KeyedBinding φ) (i : Nat) (revision : Nat)
    (snapshot : ServiceSubscriptionSnapshot ω) : KeyedBinding φ :=
  if b.closed || !b.bound || b.revision ≠ revision then b.setPhase i .closing
  else
    let b := { b.setPhase i .opened with subscription := some i }
    if snapshot.mode ≠ .keyed ∨ snapshot.serviceId ≠ b.serviceId then b
    else
      match b.spawnAll ops snapshot.instances with
      | (b, true) => { b with ready := true }
      | (b, false) => b

/-- Whether a `rebind` whose `#reset` has resolved starts a subscription. -/
def goesOn (b : KeyedBinding φ) (r : Rebind) : Bool :=
  !b.closed && b.revision = r.revision && b.bound = r.bound && r.bound && 0 < b.observerCount

inductive Label (ω : Type) where
  /-- `observe`, until the handlers of the live instances run. -/
  | observe
  /-- The rest of `observe`. -/
  | observeEnd
  | stop
  | rebind (bound : Bool)
  /-- A `rebind` after `await this.#reset(..)`. -/
  | rebindResumes (j : Nat)
  | close
  | closeResumes
  | subscribed (i : Nat) (snapshot : ServiceSubscriptionSnapshot ω)
  | subscribeRejected (i : Nat)
  | closeSettled (i : Nat) (resolved : Bool)
  | update (i : Nat) (u : ServiceProviderUpdate ω)

def step (b : KeyedBinding φ) : Label ω → Option (KeyedBinding φ)
  | .observe =>
    if b.closed then some b -- throws
    else some { b with
      observerCount := b.observerCount + 1
      observing := b.observing + 1 }
  | .observeEnd =>
    if b.observing = 0 then none
    else
      let b := { b with observing := b.observing - 1 }
      some (if b.bound && b.starting.isNone then b.start else b)
  | .stop =>
    if b.observerCount = 0 then none
    else some { b with observerCount := b.observerCount - 1 }
  | .rebind bound =>
    if b.closed then some b
    else
      let waits := b.subscription
      let b := { b with bound, revision := b.revision + 1 }.reset
      some { b with
        rebinds := b.rebinds ++ [⟨b.revision, bound, waits, false⟩] }
  | .rebindResumes j =>
    match b.rebinds[j]? with
    | none => none
    | some r =>
      let b' := { b with
        rebinds := b.rebinds.modify j fun r => { r with finished := true } }
      if r.finished then none
      else
        match b.closeResult r.waits with
        | none => none
        | some false => some b' -- rejects
        | some true => some (if b.goesOn r then b'.start else b')
  | .close =>
    if b.closed then some b
    else
      let waits := (b.starting, b.subscription)
      let b := { b with closed := true, revision := b.revision + 1 }.reset
      some { b with closeWaits := some waits }
  | .closeResumes =>
    match b.closeWaits with
    | none => none
    | some (starting, subscription) =>
      match b.closeResult subscription with
      | none => none
      | some false => some { b with closeWaits := none } -- rejects
      | some true =>
        if b.settled starting then
          some { b with
            closeWaits := none
            observerCount := 0
            disposed := true }
        else none
  | .subscribed i snapshot =>
    match b.starts[i]? with
    | some ⟨revision, .subscribing⟩ => some (b.obtained ops i revision snapshot)
    | _ => none
  | .subscribeRejected i =>
    match b.starts[i]? with
    | some ⟨_, .subscribing⟩ => some (b.setPhase i .rejected)
    | _ => none
  | .closeSettled i resolved =>
    match b.starts[i]? with
    | some ⟨_, .closing⟩ => some (b.setPhase i (.closed resolved))
    | _ => none
  | .update i u => some (b.deliver ops i u)

end KeyedBinding

end ReflectivePi.Services
