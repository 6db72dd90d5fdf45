import ReflectivePi.Lib.InsertionMap
import ReflectivePi.Lib.LiveList

/-!
# Services — Instances

The directory of keyed instances and the tasks that observe them. A
handler runs inside the loop that starts it and may call the directory
again, so a run is a stack of loops and handlers: the environment makes
calls while a handler is on top, the loops go on when it has returned.

Deactivating an entry and cancelling a task call no handler.
-/

namespace ReflectivePi.Services

/-! ## The data -/

/-- An `InstanceDirectoryEntry`: an object (`ref`), its key and its
generation. -/
structure Entry where
  ref : Nat
  key : String
  generation : Nat
  deriving DecidableEq

/-- An open observer: its task of each entry. A closed one is no longer in
the directory's set, and its tasks are cleared. -/
structure Observer where
  tasks : InsertionMap Entry Nat

/-- Delete the observer's task of the entry. -/
def Observer.forget (o : Observer) (entry : Entry) : Observer :=
  ⟨o.tasks.delete entry⟩

/-- A started task, with what held when its handler was invoked. -/
structure Task where
  observer : Nat
  entry : Entry
  /-- The entry was in the directory. -/
  live : Bool
  /-- The observer was open. -/
  observed : Bool
  deriving DecidableEq

/-- Where the execution stands: the loops and handlers it is inside of. -/
inductive Frame where
  /-- The loop of `#startAll` over the observers. -/
  | startAll (entry : Entry) (cursor : Nat)
  /-- The loop of `ready` over the entries. -/
  | ready (cursor : Nat)
  /-- The loop of `observe` over the entries. -/
  | observe (observer : Nat) (cursor : Nat)
  | handler (observer : Nat) (entry : Entry)

structure InstanceDirectory where
  entries : LiveList Entry
  observers : LiveList Observer
  ready : Bool
  disposed : Bool
  stack : List Frame
  /-- The tasks so far; a task's id is its place. -/
  started : List Task
  /-- The tasks that were cancelled. -/
  cancelled : List Nat
  /-- The entries put in so far. -/
  inserted : List Entry

namespace InstanceDirectory

def new (ready : Bool) : InstanceDirectory where
  entries := .empty
  observers := .empty
  ready
  disposed := false
  stack := []
  started := []
  cancelled := []
  inserted := []

/-! ## The operations -/

def disposedError : String := "Keyed service directory is disposed"

def liveKeyError (key : String) : String :=
  "Keyed service already has a live instance with key " ++ key

def repeatedGenerationError : String :=
  "Keyed service repeated a live generation"

def get (d : InstanceDirectory) (key : String) : Option Entry :=
  d.entries.values.find? fun e => e.key == key

def enter (d : InstanceDirectory) (f : Frame) : InstanceDirectory :=
  { d with stack := f :: d.stack }

/-- `#remove`. -/
def removeEntry (d : InstanceDirectory) (entry : Entry) : InstanceDirectory :=
  if d.get entry.key ≠ some entry then d
  else
    { d with
      entries := d.entries.keep fun _ e => e.key != entry.key
      observers := d.observers.map fun _ o => o.forget entry
      cancelled := d.cancelled ++ d.observers.values.filterMap fun o => o.tasks.get? entry }

/-- Set the entry and announce it. -/
def put (d : InstanceDirectory) (entry : Entry) : InstanceDirectory :=
  let d := { d with
    entries := d.entries.push entry
    inserted := d.inserted ++ [entry] }
  if d.ready then d.enter (.startAll entry 0) else d

def insert (d : InstanceDirectory) (entry : Entry) : Except String InstanceDirectory :=
  if d.disposed then .error disposedError
  else if (d.get entry.key).isSome then .error (liveKeyError entry.key)
  else .ok (d.put entry)

def replace (d : InstanceDirectory) (entry : Entry) : Except String InstanceDirectory :=
  if d.disposed then .error disposedError
  else
    match d.get entry.key with
    | none => .ok (d.put entry)
    | some previous =>
      if previous.generation = entry.generation then
        .error repeatedGenerationError
      else .ok ((d.removeEntry previous).put entry)

def becomeReady (d : InstanceDirectory) : Except String InstanceDirectory :=
  if d.disposed then .error disposedError
  else if d.ready then .ok d
  else .ok ({ d with ready := true }.enter (.ready 0))

def reset (d : InstanceDirectory) : InstanceDirectory :=
  if d.disposed then d
  else d.entries.values.foldl removeEntry { d with ready := false }

/-- The observer's id is its slot. -/
def observe (d : InstanceDirectory) : Except String InstanceDirectory :=
  if d.disposed then .error disposedError
  else
    let observer := d.observers.next
    let d := { d with observers := d.observers.push ⟨.empty⟩ }
    .ok (if d.ready then d.enter (.observe observer 0) else d)

/-- The function `observe` returned. -/
def stop (d : InstanceDirectory) (observer : Nat) : InstanceDirectory :=
  match d.observers.get? observer with
  | none => d
  | some o =>
    { d with
      observers := d.observers.keep fun n _ => n != observer
      cancelled := d.cancelled ++ o.tasks.values }

def dispose (d : InstanceDirectory) : InstanceDirectory :=
  if d.disposed then d
  else
    { d with
      disposed := true
      entries := d.entries.keep fun _ _ => false
      observers := d.observers.keep fun _ _ => false
      cancelled := d.cancelled ++ d.observers.values.flatMap fun o => o.tasks.values }

/-- `#start`: what it does before the handler runs. -/
def start (d : InstanceDirectory) (observer : Nat) (entry : Entry) : InstanceDirectory :=
  match d.observers.get? observer with
  | none => d
  | some o =>
    if o.tasks.has entry then d
    else
      { d with
        observers := d.observers.update observer fun o =>
          ⟨o.tasks.set entry d.started.length⟩
        started := d.started ++
          [{ observer, entry, live := decide (entry ∈ d.entries.values)
             observed := (d.observers.get? observer).isSome }]
        stack := .handler observer entry :: d.stack }

/-! ## Runs -/

inductive Call where
  | insert (entry : Entry)
  | replace (entry : Entry)
  | remove (entry : Entry)
  | ready
  | reset
  | observe
  | stop (observer : Nat)
  | dispose

def perform (d : InstanceDirectory) : Call → Except String InstanceDirectory
  | .insert entry => d.insert entry
  | .replace entry => d.replace entry
  | .remove entry => .ok (d.removeEntry entry)
  | .ready => d.becomeReady
  | .reset => .ok d.reset
  | .observe => d.observe
  | .stop observer => .ok (d.stop observer)
  | .dispose => .ok d.dispose

/-- The loop on top of the stack does one more round, or ends. -/
def advance (d : InstanceDirectory) : Option InstanceDirectory :=
  match d.stack with
  | .startAll entry cursor :: rest =>
    match d.observers.visit cursor with
    | none => some { d with stack := rest }
    | some (n, _) =>
      some (start { d with stack := .startAll entry (n + 1) :: rest } n entry)
  | .ready cursor :: rest =>
    match d.entries.visit cursor with
    | none => some { d with stack := rest }
    | some (k, entry) =>
      some { d with stack := .startAll entry 0 :: .ready (k + 1) :: rest }
  | .observe observer cursor :: rest =>
    match d.entries.visit cursor with
    | none => some { d with stack := rest }
    | some (k, entry) =>
      some (start { d with stack := .observe observer (k + 1) :: rest } observer entry)
  | _ => none

/-- What happens next: a call from outside or from the handler on top, the
end of that handler, or one more round of the loop on top. -/
inductive Label where
  | call (c : Call)
  | finish
  | advance

/-- Calls are possible while no loop of the directory is on top. -/
def acceptsCall : List Frame → Bool
  | [] | .handler _ _ :: _ => true
  | _ => false

def step (d : InstanceDirectory) : Label → Option InstanceDirectory
  | .call c =>
    if acceptsCall d.stack then
      match d.perform c with
      | .ok d' => some d'
      | .error _ => some d -- the caller gets the error
    else none
  | .finish =>
    match d.stack with
    | .handler _ _ :: rest => some { d with stack := rest }
    | _ => none
  | .advance => d.advance

end InstanceDirectory

end ReflectivePi.Services
