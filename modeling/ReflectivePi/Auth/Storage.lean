import ReflectivePi.Auth.OAuth

/-!
# Auth — Storage

`AuthStorage` of several processes over one file. Writers change the file under
its lock and keep what they know of it in the process's read state; readers
take the read state when the file still has its revision, else they join the
reload that is under way. The instances of a process share the read state.
-/

namespace ReflectivePi.Auth

inductive AuthFile where
  | missing
  /-- Content that is not JSON. -/
  | invalid
  | holding (data : Credentials)

/-- `parseStorageData` of the content; `none` when it throws. -/
def AuthFile.parse : AuthFile → Option Credentials
  | .missing => some InsertionMap.empty
  | .invalid => none
  | .holding data => some data

/-- What a call changes. -/
inductive Change where
  | put (provider : String) (credential : Credential)
  | remove (provider : String)

def Change.apply (change : Change) (data : Credentials) : Credentials :=
  match change with
  | .put provider credential => data.set provider credential
  | .remove provider => data.delete provider

structure ReadState where
  data : Credentials := InsertionMap.empty
  revision : Option Nat := none
  /-- The shared reload. -/
  reload : Option Nat := none

inductive OpKind where
  | modify (provider : String)
  | delete (provider : String)
  | reload
  deriving DecidableEq

/-- Where a call of `withLockAsync` is. -/
inductive OpPhase where
  | starting
  /-- The file was missing: `{}` is about to be written. -/
  | creating
  | waiting
  | locked
  /-- The function that `modify` was called with runs. -/
  | running (current : Credentials)
  /-- What is to be written, and what the read state is to know. -/
  | ready (change : Option Change) (data : Credentials) (revision : Option Nat)
  /-- The lock is still held; `none` stands for an error. -/
  | releasing (result : Option (Credentials × Option Nat))
  /-- The lock is given back, but the promise has not settled. -/
  | released (result : Option (Credentials × Option Nat))
  | finished (result : Option Credentials)

def OpPhase.holds : OpPhase → Bool
  | .locked | .running _ | .ready _ _ _ | .releasing _ => true
  | _ => false

def OpPhase.isReleased : OpPhase → Bool
  | .released _ => true
  | _ => false

structure Op where
  process : Nat
  kind : OpKind
  aborted : Bool := false
  /-- The readers of a shared reload. -/
  readers : Nat := 0
  /-- How many events its view of the file comes after. -/
  mark : Nat := 0
  phase : OpPhase := .starting

structure Reader where
  process : Nat
  hasSignal : Bool
  /-- The reload that it waits for. -/
  joined : Option Nat

inductive StorageEvent where
  | fnReturned (id : Nat) (next : Option Credential)
  /-- A call is past the point where it could be aborted. -/
  | applied (id : Nat) (change : Option Change)
  | resolved (process id : Nat)
  | rejected (process id : Nat)
  | readStarted (process id : Nat)
  | readReturned (id : Nat) (data : Credentials)

structure Storage where
  file : AuthFile
  /-- `getFileRevision` of a file that is there. -/
  revision : Nat := 0
  lock : Option Nat := none
  states : Nat → ReadState := fun _ => {}
  ops : List Op := []
  readers : List Reader := []
  events : List StorageEvent := []

inductive StorageStep where
  | modify (process : Nat) (provider : String)
  | delete (process : Nat) (provider : String)
  /-- `reload()`, also that of a new instance. -/
  | reload (process : Nat)
  | abort (id : Nat)
  | checkExists (id : Nat)
  | create (id revision : Nat)
  | acquire (id : Nat)
  | lockTimeout (id : Nat)
  | enter (id : Nat)
  | fnReturns (id : Nat) (next : Option Credential)
  | fnFails (id : Nat)
  | commit (id revision : Nat)
  | release (id : Nat)
  | settle (id : Nat)
  /-- `read` or `list` -/
  | read (process : Nat) (hasSignal : Bool)
  | readAbort (id : Nat)
  | readFinish (id : Nat)

namespace Storage

/-- `getFileRevision`. -/
def fileRevision (s : Storage) : Option Nat :=
  match s.file with
  | .missing => none
  | _ => some s.revision

def log (s : Storage) (events : List StorageEvent) : Storage :=
  { s with events := s.events ++ events }

def setOp (s : Storage) (id : Nat) (op : Op) : Storage := { s with ops := s.ops.set id op }

def setState (s : Storage) (process : Nat) (state : ReadState) : Storage :=
  { s with states := Function.update s.states process state }

def updateReadState (s : Storage) (process : Nat) (data : Credentials)
    (revision : Option Nat) : Storage :=
  s.setState process { s.states process with data, revision }

/-- The shared reload is no longer the one to join. -/
def clearReload (s : Storage) (process id : Nat) : Storage :=
  if (s.states process).reload = some id then
    s.setState process { s.states process with reload := none }
  else s

/-- The promise of a call settles. -/
def settleOp (s : Storage) (id : Nat) (op : Op) (result : Option (Credentials × Option Nat)) :
    Storage :=
  let s := s.setOp id { op with phase := .finished (result.map Prod.fst) }
  match op.kind, result with
  | .reload, _ => s.clearReload op.process id
  | _, some (data, revision) =>
    (s.updateReadState op.process data revision).log [.resolved op.process id]
  | _, none => s.log [.rejected op.process id]

/-- The function that runs under the lock, up to where it waits. -/
def enterOp (s : Storage) (id : Nat) (op : Op) : Storage :=
  let op := { op with mark := s.events.length }
  match op.aborted, s.file.parse with
  | false, some current =>
    match op.kind with
    | .modify _ => s.setOp id { op with phase := .running current }
    | .delete provider =>
      let change := Change.remove provider
      s.setOp id { op with phase := .ready (some change) (change.apply current) none }
    | .reload =>
      (s.setOp id { op with phase := .ready none current s.fileRevision }).updateReadState
        op.process current s.fileRevision
  | _, _ => s.setOp id { op with phase := .releasing none }

/-- The write, unless the call was aborted. -/
def commitOp (s : Storage) (id revision : Nat) (op : Op) (change : Option Change)
    (data : Credentials) (dataRevision : Option Nat) : Storage :=
  if op.aborted then s.setOp id { op with phase := .releasing none }
  else
    let phase := OpPhase.releasing (some (data, dataRevision))
    match op.kind with
    | .reload => s.setOp id { op with phase }
    | _ =>
      let s := (s.setOp id { op with phase, mark := s.events.length + 1 }).log [.applied id change]
      match change with
      | some _ => { s with file := .holding data, revision }
      | none => s

/-- The step of a call that is under way. -/
def advance (s : Storage) (id : Nat) (op : Op) : StorageStep → Option Storage
  | .abort _ =>
    match op.kind with
    | .reload => none
    | _ => some (s.setOp id { op with aborted := true })
  | .checkExists _ =>
    match op.phase with
    | .starting =>
      if op.aborted then some (s.settleOp id op none)
      else
        match s.file with
        | .missing => some (s.setOp id { op with phase := .creating })
        | _ => some (s.setOp id { op with phase := .waiting })
    | _ => none
  | .create _ revision =>
    match op.phase with
    | .creating =>
      -- whatever the file has become meanwhile
      some { s.setOp id { op with phase := .waiting } with
        file := .holding InsertionMap.empty, revision }
    | _ => none
  | .acquire _ =>
    match op.phase with
    | .waiting =>
      if op.aborted then some (s.settleOp id op none)
      else
        match s.lock with
        | none => some { s.setOp id { op with phase := .locked } with lock := some id }
        | some _ => none
    | _ => none
  | .lockTimeout _ =>
    match op.phase with
    | .waiting => some (s.settleOp id op none)
    | _ => none
  | .enter _ =>
    match op.phase with
    | .locked => some (s.enterOp id op)
    | _ => none
  | .fnReturns _ next =>
    match op.phase, op.kind with
    | .running current, .modify provider =>
      let s := s.log [.fnReturned id next]
      match next with
      | some credential =>
        let change := Change.put provider credential
        some (s.setOp id { op with
          phase := .ready (some change) (change.apply current) none })
      | none => some (s.setOp id { op with phase := .ready none current s.fileRevision })
    | _, _ => none
  | .fnFails _ =>
    match op.phase with
    | .running _ => some (s.setOp id { op with phase := .releasing none })
    | _ => none
  | .commit _ revision =>
    match op.phase with
    | .ready change data dataRevision =>
      some (s.commitOp id revision op change data dataRevision)
    | _ => none
  | .release _ =>
    match op.phase with
    | .releasing result =>
      some { s.setOp id { op with phase := .released result } with lock := none }
    | _ => none
  | .settle _ =>
    match op.phase with
    | .released result => some (s.settleOp id op result)
    | _ => none
  | _ => none

/-- A call begins; its number is the next one. -/
def newOp (s : Storage) (process : Nat) (kind : OpKind) (readers : Nat) : Storage :=
  { s with ops := s.ops ++ [{ process, kind, readers }] }

def addReader (s : Storage) (reader : Reader) : Storage :=
  { s with readers := s.readers ++ [reader] }

/-- `readLatestData`, up to where it waits. -/
def startRead (s : Storage) (process : Nat) (hasSignal : Bool) : Storage :=
  let id := s.readers.length
  let s := s.log [.readStarted process id]
  let state := s.states process
  if s.fileRevision.isSome ∧ s.fileRevision = state.revision then
    (s.addReader { process, hasSignal, joined := none }).log [.readReturned id state.data]
  else
    match state.reload with
    | some reload =>
      let s := s.addReader { process, hasSignal, joined := some reload }
      match s.ops[reload]? with
      | some op => s.setOp reload { op with readers := op.readers + 1 }
      | none => s
    | none =>
      let reload := s.ops.length
      ((s.newOp process .reload 1).setState process { state with reload := some reload }).addReader
        { process, hasSignal, joined := some reload }

/-- A reader leaves a reload; the last one aborts it, when it can still be joined. -/
def leave (s : Storage) (id : Nat) (reader : Reader) (reload : Nat) (op : Op) : Storage :=
  let s := { s with readers := s.readers.set id { reader with joined := none } }
  let op := { op with readers := op.readers - 1 }
  if op.readers = 0 ∧ (s.states reader.process).reload = some reload then
    (s.setOp reload { op with aborted := true }).clearReload reader.process reload
  else s.setOp reload op

/-- A reader's step: what it waits for, the reload, and what becomes of it. -/
def advanceReader (s : Storage) (id : Nat) (reader : Reader) (reload : Nat) (op : Op) :
    StorageStep → Option Storage
  | .readAbort _ => if reader.hasSignal then some (s.leave id reader reload op) else none
  | .readFinish _ =>
    match op.phase with
    | .finished (some data) => some ((s.leave id reader reload op).log [.readReturned id data])
    | .finished none =>
      let left := s.leave id reader reload op
      -- without a signal the read state is good enough
      if reader.hasSignal then some left
      else some (left.log [.readReturned id (left.states reader.process).data])
    | _ => none
  | _ => none

def step (s : Storage) (label : StorageStep) : Option Storage :=
  match label with
  | .modify process provider => some (s.newOp process (.modify provider) 0)
  | .delete process provider => some (s.newOp process (.delete provider) 0)
  | .reload process => some (s.newOp process .reload 0)
  | .read process hasSignal => some (s.startRead process hasSignal)
  | .readAbort id | .readFinish id =>
    (s.readers[id]?).bind fun reader => reader.joined.bind fun reload =>
      (s.ops[reload]?).bind fun op => s.advanceReader id reader reload op label
  | .abort id | .checkExists id | .create id _ | .acquire id | .lockTimeout id | .enter id
  | .fnReturns id _ | .fnFails id | .commit id _ | .release id | .settle id =>
    (s.ops[id]?).bind fun op => s.advance id op label

/-- Nothing has happened yet; the file may be anything. -/
def start (file : AuthFile) (revision : Nat) : Storage := { file, revision }

end Storage

end ReflectivePi.Auth
