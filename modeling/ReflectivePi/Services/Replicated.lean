import ReflectivePi.Lib.LabelledRun

/-!
# Services — Replicated

`MutableReplicatedStateImpl`, one step at a time. The stack holds what is
running: the recipe of a change, a listener that is being hydrated, the
delivery loop of `#commit`, and a listener that the loop has called. While a
delivery is on top the code itself goes on (`tick`); otherwise code of the
users runs, and may make any call, return or throw. What the draft of a
recipe and the import of a value come to is up to the step.
-/

namespace ReflectivePi.Services.Replicated

/-- A committed revision on its way to the listeners. -/
structure Publication (T C O : Type) where
  value : T
  ops : List O
  sequence : Nat
  context : C
deriving DecidableEq

/-- `#sourceListeners` are given the operations, `#listeners` the values. -/
inductive Kind where
  | source
  | listener
deriving DecidableEq

/-- Where the loop of `#commit` stands: about to shift, or at the snapshot of
one kind with the listeners that are left of it. -/
inductive Phase (T C F O : Type) where
  | shift
  | telling (kind : Kind) (publication : Publication T C O) (left : List (F × Nat))

inductive Frame (T C F E O : Type) where
  /-- The recipe of `change`, with the revision that it drafts. -/
  | recipe (context : C) (base : T) (sequence : Nat)
  | hydration (listener : F)
  | delivery (phase : Phase T C F O) (errors : List E)
  /-- A call made by the delivery right beneath. -/
  | call

/-- What a call throws. -/
inductive Failure (E : Type) where
  | error (message : String)
  | thrown (error : E)
  | aggregate (errors : List E) (message : String)

/-- What has happened; the code reads none of it. -/
inductive Event (T C F O : Type) where
  | committed (publication : Publication T C O)
  | shifted (publication : Publication T C O)
  | subscribed (kind : Kind) (listener : F)
  | unsubscribed (kind : Kind) (listener : F)
  | told (kind : Kind) (listener : F) (publication : Publication T C O)

structure State (T C F E O : Type) where
  value : T
  sequence : Nat := 0
  /-- `#listeners` with their hydrated sequences, and `#sourceListeners`; the
  number beside a source listener, which the code does not have, counts the
  publications shifted before it came. -/
  listeners : Kind → List (F × Nat) := fun _ => []
  publications : List (Publication T C O) := []
  changing : Bool := false
  delivering : Bool := false
  stack : List (Frame T C F E O) := []
  /-- What the last call threw, if it did. -/
  outcome : Option (Failure E) := none
  /-- The latest event first. -/
  history : List (Event T C F O) := []

inductive Label (T C F E : Type) where
  | change (context : C)
  /-- The recipe returns; `none` if the draft is still the same value. -/
  | produced (next : Option T)
  | replace (context : C) (imported : Except E T)
  | subscribe (kind : Kind) (listener : F)
  | unsubscribe (kind : Kind) (listener : F)
  | returned
  | threw (error : E)
  | tick

variable {T C F E O : Type}

/-! ## What the history says -/

/-- The committed publications, the first one first. -/
def commits (history : List (Event T C F O)) : List (Publication T C O) :=
  (history.filterMap fun
    | .committed publication => some publication
    | _ => none).reverse

/-- The publications taken off the queue. -/
def shifts (history : List (Event T C F O)) : List (Publication T C O) :=
  (history.filterMap fun
    | .shifted publication => some publication
    | _ => none).reverse

/-- The number of revisions a listener does without: the current sequence when
it was last subscribed, for a source listener what was shifted by then. -/
def since [DecidableEq F] (kind : Kind) (listener : F) :
    List (Event T C F O) → Option Nat
  | [] => none
  | event :: history =>
    match event with
    | .subscribed k f =>
      if k = kind ∧ f = listener then
        some (match kind with
          | .source => (shifts history).length
          | .listener => (commits history).length)
      else since kind listener history
    | _ => since kind listener history

/-- What a listener was given since it was last subscribed. -/
def heard [DecidableEq F] (kind : Kind) (listener : F) :
    List (Event T C F O) → List (Publication T C O)
  | [] => []
  | event :: history =>
    match event with
    | .subscribed k f =>
      if k = kind ∧ f = listener then [] else heard kind listener history
    | .told k f publication =>
      if k = kind ∧ f = listener then heard kind listener history ++ [publication]
      else heard kind listener history
    | _ => heard kind listener history

/-- The number of publications shifted when a listener was unsubscribed. -/
def leftAt [DecidableEq F] (kind : Kind) (listener : F) :
    List (Event T C F O) → Option Nat
  | [] => none
  | event :: history =>
    match event with
    | .subscribed k f =>
      if k = kind ∧ f = listener then none else leftAt kind listener history
    | .unsubscribed k f =>
      if k = kind ∧ f = listener then some (shifts history).length
      else leftAt kind listener history
    | _ => leftAt kind listener history

namespace State

/-- `new MutableReplicatedStateImpl`. -/
def create (initial : T) : State T C F E O := { value := initial }

/-- Code of the users is running, not the delivery loop. -/
def calling (s : State T C F E O) : Bool :=
  match s.stack with
  | .delivery _ _ :: _ => false
  | _ => true

/-- `#commit`; the loop runs as the delivery that it pushes. -/
def commit (diffRevisions : T → T → List O) (s : State T C F E O) (next : T)
    (context : C) : State T C F E O :=
  let ops := diffRevisions s.value next
  if ops.isEmpty then s
  else
    let publication := ⟨next, ops, s.sequence + 1, context⟩
    let s := { s with
      value := next, sequence := s.sequence + 1
      publications := s.publications ++ [publication]
      history := .committed publication :: s.history }
    if s.delivering then s
    else { s with delivering := true, stack := .delivery .shift [] :: s.stack }

section

variable [DecidableEq F]

/-- `Map.set` on the listeners, `Set.add` on the source listeners. -/
def register (kind : Kind) (listener : F) (number : Nat) (entries : List (F × Nat)) :
    List (F × Nat) :=
  if listener ∈ entries.map Prod.fst then
    match kind with
    | .source => entries
    | .listener => entries.map fun entry =>
      if entry.1 = listener then (listener, number) else entry
  else entries ++ [(listener, number)]

def setListeners (s : State T C F E O) (kind : Kind) (entries : List (F × Nat)) : State T C F E O :=
  { s with listeners := fun k => if k = kind then entries else s.listeners k }

/-- The `delete` of an unsubscribe function. -/
def delete (s : State T C F E O) (kind : Kind) (listener : F) : State T C F E O :=
  if listener ∈ (s.listeners kind).map Prod.fst then
    { s.setListeners kind ((s.listeners kind).filter fun entry => entry.1 ≠ listener) with
      history := .unsubscribed kind listener :: s.history }
  else s

/-- Registers a listener; the one of `subscribe` is then given the value. -/
def subscribe (s : State T C F E O) (kind : Kind) (listener : F) : State T C F E O :=
  let number := match kind with
    | .source => s.sequence - s.publications.length
    | .listener => s.sequence
  let s := { s.setListeners kind (register kind listener number (s.listeners kind)) with
    history := .subscribed kind listener :: s.history }
  match kind with
  | .source => { s with outcome := none }
  | .listener => { s with stack := .hydration listener :: s.stack }

/-- What `#commit` throws after the loop. -/
def failureOf : List E → Option (Failure E)
  | [] => none
  | [error] => some (.thrown error)
  | errors => some (.aggregate errors "Replicated state listeners failed")

/-- One move of the delivery loop, over the stack beneath it. -/
def deliver (s : State T C F E O) (phase : Phase T C F O) (errors : List E)
    (stack : List (Frame T C F E O)) : State T C F E O :=
  match phase with
  | .shift =>
    match s.publications with
    | [] => { s with delivering := false, stack, outcome := failureOf errors }
    | publication :: publications =>
      { s with
        publications
        stack := .delivery (.telling .source publication (s.listeners .source)) errors :: stack
        history := .shifted publication :: s.history }
  | .telling .source publication [] =>
    { s with stack :=
        .delivery (.telling .listener publication (s.listeners .listener)) errors :: stack }
  | .telling .listener _ [] => { s with stack := .delivery .shift errors :: stack }
  | .telling kind publication ((listener, hydrated) :: left) =>
    let s := { s with stack := .delivery (.telling kind publication left) errors :: stack }
    if kind = .listener ∧ publication.sequence ≤ hydrated then s
    else { s with
      stack := .call :: s.stack
      history := .told kind listener publication :: s.history }

def step (diffRevisions : T → T → List O) (s : State T C F E O) :
    Label T C F E → Option (State T C F E O)
  | .change context =>
    if !s.calling then none
    else if s.changing then
      some { s with outcome := some (.error
        "Replicated state cannot be changed reentrantly from a change callback") }
    else
      some { s with
        changing := true, stack := .recipe context s.value s.sequence :: s.stack }
  | .produced next =>
    match s.stack with
    | .recipe context _ _ :: stack =>
      let s := { s with changing := false, stack, outcome := none }
      some (match next with
        | none => s
        | some value => s.commit diffRevisions value context)
    | _ => none
  | .replace context imported =>
    if !s.calling then none
    else if s.changing then
      some { s with outcome := some (.error
        "Replicated state cannot be replaced from a change callback") }
    else
      match imported with
      | .error error => some { s with outcome := some (.thrown error) }
      | .ok value => some ({ s with outcome := none }.commit diffRevisions value context)
  | .subscribe kind listener =>
    if s.calling then some (s.subscribe kind listener) else none
  | .unsubscribe kind listener =>
    if s.calling then some { s.delete kind listener with outcome := none } else none
  | .returned =>
    match s.stack with
    | .hydration _ :: stack => some { s with stack, outcome := none }
    | .call :: .delivery phase errors :: stack =>
      some { s with stack := .delivery phase errors :: stack }
    | _ => none
  | .threw error =>
    match s.stack with
    | .recipe _ _ _ :: stack =>
      some { s with changing := false, stack, outcome := some (.thrown error) }
    | .hydration listener :: stack =>
      some { s.delete .listener listener with
        stack, outcome := some (.thrown error) }
    | .call :: .delivery phase errors :: stack =>
      some { s with stack := .delivery phase (errors ++ [error]) :: stack }
    | _ => none
  | .tick =>
    match s.stack with
    | .delivery phase errors :: stack => some (s.deliver phase errors stack)
    | _ => none

end

end State

end ReflectivePi.Services.Replicated
