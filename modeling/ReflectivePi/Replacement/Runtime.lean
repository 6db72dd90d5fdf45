import ReflectivePi.Session.SharedDisk

/-!
# Replacement — Runtime

The session runtime: `switchSession`, `newSession`, `fork` and `importFromJsonl`
replace the current session, each in one call that opens its target, tears down
the current session and has another one made. Calls may overlap: a step is the part
of one call between two of its waits, or what a manager appends meanwhile.

The session manager and the disk are those of the session files. The names of new
session files carry a new UUID; nothing has them yet.
-/

namespace ReflectivePi.Replacement

open Session

/-! ## The state -/

structure AgentSession where
  manager : Nat
  disposed : Bool := false
  deriving DecidableEq

inductive Position where
  | beforeEntry
  | atEntry

inductive Request where
  | switchSession (sessionPath : String)
  | newSession (parentSession : Option String)
  | fork (entryId : EntryId) (position : Position)
  /-- Both paths are one if the file is stored in the session directory. -/
  | importFromJsonl (resolvedPath destinationPath : String)

/-- What the session is to be replaced by: a manager of its own, or the one it has,
cut to an entry. -/
inductive Target where
  | opened (manager : Nat)
  | inPlace (manager : Nat) (targetLeafId : Option EntryId) (previousSessionFile : Option String)

def Target.manager : Target → Nat
  | .opened n => n
  | .inPlace n _ _ => n

inductive Ending where
  | cancelled
  | failed
  | replaced

/-- What a call waits for: the hook before the switch, `abort()`, the
`session_shutdown` handlers, the factory, what follows the replacement. -/
inductive Place where
  | asking
  | aborting (target : Target)
  | shuttingDown (target : Target)
  | creating (manager : Nat)
  | finishing
  | ended (ending : Ending)

structure Call where
  request : Request
  place : Place

inductive Event where
  /-- `session_shutdown` is sent to the session. -/
  | shutdown (session : Nat)
  | dispose (session : Nat)
  | create (session : Nat)
  deriving DecidableEq

structure AgentSessionRuntime where
  /-- `_session`, among those the factory has made. -/
  session : Nat
  sessions : List AgentSession
  managers : List LiveManager
  disk : Disk
  calls : List Call
  /-- What calls have done, each event with its call. -/
  log : List (Nat × Event)

namespace AgentSessionRuntime

def setPlace (s : AgentSessionRuntime) (c : Nat) (place : Place) : AgentSessionRuntime :=
  { s with calls := s.calls.modify c fun call => { call with place } }

def fail (s : AgentSessionRuntime) (c : Nat) : AgentSessionRuntime := s.setPlace c (.ended .failed)

/-- The index of `this.session.sessionManager`. -/
def managerIndex (s : AgentSessionRuntime) : Option Nat :=
  s.sessions[s.session]?.map AgentSession.manager

/-- Nothing has the name of the file. -/
def isNew (s : AgentSessionRuntime) (name : String) : Bool :=
  (s.disk name).isNone && s.managers.all fun m => m.sessionFile ≠ some name

/-- The target is there; `abort()` of the current session begins. -/
def target (s : AgentSessionRuntime) (c : Nat) (m : LiveManager) : AgentSessionRuntime :=
  { s with managers := s.managers ++ [m] }.setPlace c (.aborting (.opened s.managers.length))

section

variable (F : LineFormat) (migrate : List FileEntry → List FileEntry × Bool)

/-! ## Targets -/

/-- `SessionManager.open`, and its check of the session's directory. -/
def openSession (s : AgentSessionRuntime) (c : Nat) (env : Environment) (path : String)
    (chunks : List Text) (cwdExists : Bool) : AgentSessionRuntime :=
  match World.openFile F migrate env ⟨.blank true, s.disk⟩ path chunks with
  | none => s.fail c
  | some opened =>
    if cwdExists then { s with disk := opened.disk }.target c opened.manager
    else { s with disk := opened.disk }.fail c

/-- `SessionManager.create` or `SessionManager.inMemory`, and `newSession` with the
parent. -/
def newManager (env : Environment) (persist : Bool) (parentSession : Option String) : LiveManager :=
  let m := (LiveManager.blank persist).startSession env {}
  match parentSession with
  | some parent => if parent = "" then m else m.startSession env { parentSession := some parent }
  | none => m

/-- The manager of a new session becomes the target. -/
def targetNew (s : AgentSessionRuntime) (c : Nat) (m : LiveManager) : Option AgentSessionRuntime :=
  if m.sessionFile.all s.isNew then some (s.target c m) else none

/-- The leaf a fork goes to. -/
def forkLeaf (selectedEntry : SessionEntry) : Position → Option (Option EntryId)
  | .atEntry => some (some selectedEntry.id)
  | .beforeEntry =>
    match selectedEntry.kind with
    | .message (.user _ _) => some selectedEntry.parentId
    | _ => none

/-- The branch of a fork is taken from the file, into a file of its own. -/
def forkFile (s : AgentSessionRuntime) (c : Nat) (env : Environment) (path : String)
    (targetLeafId : EntryId) (chunks : List Text) : Option AgentSessionRuntime :=
  if (s.disk path).isNone then some (s.fail c)
  else
    match World.openFile F migrate env ⟨.blank true, s.disk⟩ path chunks with
    | none => some (s.fail c)
    | some opened =>
      let s := { s with disk := opened.disk }
      let outcome := opened.manager.createBranchedSession env targetLeafId
      if outcome.error.isSome then some (s.fail c)
      else if outcome.manager.sessionFile.all s.isNew then
        match s.disk.applyAll F outcome.writes with
        | some disk => some ({ s with disk }.target c outcome.manager)
        | none => some (s.fail c)
      else none

def fork (s : AgentSessionRuntime) (c n : Nat) (current : LiveManager) (env : Environment)
    (entryId : EntryId) (position : Position) (chunks : List Text) : Option AgentSessionRuntime :=
  match (current.byId.get? entryId).bind (forkLeaf · position) with
  | none => some (s.fail c)
  | some targetLeafId =>
    if current.persist then
      match current.sessionFile with
      | none => some (s.fail c)
      | some currentSessionFile =>
        match targetLeafId with
        | none => s.targetNew c (newManager env true (some currentSessionFile))
        | some leafId => s.forkFile F migrate c env currentSessionFile leafId chunks
    else
      some (s.setPlace c (.aborting (.inPlace n targetLeafId current.sessionFile)))

/-- What a call does when the hook has let it pass. -/
def proceed (s : AgentSessionRuntime) (c : Nat) (request : Request) (env : Environment)
    (chunks : List Text) (cwdExists : Bool) : Option AgentSessionRuntime :=
  match s.managerIndex with
  | none => none
  | some n =>
    match s.managers[n]? with
    | none => none
    | some current =>
      match request with
      | .switchSession sessionPath =>
        some (s.openSession F migrate c env sessionPath chunks cwdExists)
      | .newSession parentSession =>
        s.targetNew c (newManager env current.persist parentSession)
      | .fork entryId position => s.fork F migrate c n current env entryId position chunks
      | .importFromJsonl resolvedPath destinationPath =>
        if resolvedPath = destinationPath then
          some (s.openSession F migrate c env destinationPath chunks cwdExists)
        else
          match s.disk resolvedPath, s.disk destinationPath with
          | some text, none =>
            some ({ s with disk := s.disk.put destinationPath text }.openSession F
              migrate c env destinationPath chunks cwdExists)
          | _, _ => some (s.fail c)

/-- An operation of a manager, once its file operations succeed, and whether it
throws. -/
def perform (s : AgentSessionRuntime) (n : Nat) (env : Environment) (op : LiveManager.Operation) :
    Option (AgentSessionRuntime × Bool) :=
  match s.managers[n]? with
  | none => none
  | some m =>
    if (m.newName env op).all s.isNew then
      let outcome := m.perform migrate env op
      (s.disk.applyAll F outcome.writes).map fun disk =>
        ({ s with managers := s.managers.set n outcome.manager, disk }, outcome.error.isSome)
    else none

/-- `dispose()` of the current session. -/
def dispose (s : AgentSessionRuntime) (c : Nat) : AgentSessionRuntime :=
  { s with
    sessions := s.sessions.modify s.session fun session => { session with disposed := true }
    log := s.log ++ [(c, .dispose s.session)] }

/-- How a fork cuts the session that is held in memory. -/
def cut (targetLeafId : Option EntryId) (previousSessionFile : Option String) :
    LiveManager.Operation :=
  match targetLeafId with
  | none => .newSession { parentSession := previousSessionFile }
  | some leafId => .createBranchedSession leafId

/-- The current session has been told, and is disposed. -/
def teardown (s : AgentSessionRuntime) (c : Nat) (target : Target) (env : Environment) :
    Option AgentSessionRuntime :=
  match target with
  | .opened n => some ((s.dispose c).setPlace c (.creating n))
  | .inPlace n targetLeafId previousSessionFile =>
    ((s.dispose c).perform F migrate n env (cut targetLeafId previousSessionFile)).map
      fun (s, throws) => if throws then s.fail c else s.setPlace c (.creating n)

/-- `apply` of the session that the factory has made. -/
def apply (s : AgentSessionRuntime) (c n : Nat) : AgentSessionRuntime :=
  let session : AgentSession := { manager := n }
  { s with
    session := s.sessions.length
    sessions := s.sessions ++ [session]
    log := s.log ++ [(c, Event.create s.sessions.length)] }.setPlace c .finishing

end

end AgentSessionRuntime

/-- Steps of a call, in their order, and an operation of a manager: of a run, of a
handler, of the factory, or of anyone who holds the manager. -/
inductive Label where
  | start (request : Request)
  | answer (c : Nat) (cancels : Bool) (env : Environment) (chunks : List Text) (cwdExists : Bool)
  | aborted (c : Nat)
  | shutDown (c : Nat) (env : Environment)
  | created (c : Nat)
  | finish (c : Nat) (throws : Bool)
  /-- `abort()` or `beforeSessionInvalidate` throws. -/
  | throws (c : Nat)
  | operate (manager : Nat) (env : Environment) (op : LiveManager.Operation)

def Operation.opensFile : LiveManager.Operation → Bool
  | .setSessionFile _ _ => true
  | _ => false

/-- An import begins if its file is there, and under a name that is free. -/
def Request.begins (disk : Disk) : Request → Option Bool
  | .importFromJsonl resolvedPath destinationPath =>
    if (disk resolvedPath).isNone then some false
    else if resolvedPath = destinationPath || (disk destinationPath).isNone then some true
    else none
  | _ => some true

open AgentSessionRuntime in
def step (F : LineFormat) (migrate : List FileEntry → List FileEntry × Bool)
    (s : AgentSessionRuntime) : Label → Option AgentSessionRuntime
  | .start request =>
    (request.begins s.disk).map fun begins =>
      { s with calls := s.calls ++ [⟨request, if begins then .asking else .ended .failed⟩] }
  | .answer c cancels env chunks cwdExists =>
    match s.calls[c]? with
    | some ⟨request, .asking⟩ =>
      if cancels then some (s.setPlace c (.ended .cancelled))
      else s.proceed F migrate c request env chunks cwdExists
    | _ => none
  | .aborted c =>
    match s.calls[c]?.map Call.place with
    | some (.aborting target) =>
      some ({ s with log := s.log ++ [(c, Event.shutdown s.session)] }.setPlace c
        (.shuttingDown target))
    | _ => none
  | .shutDown c env =>
    match s.calls[c]?.map Call.place with
    | some (.shuttingDown target) => s.teardown F migrate c target env
    | _ => none
  | .created c =>
    match s.calls[c]?.map Call.place with
    | some (.creating n) => some (s.apply c n)
    | _ => none
  | .finish c throws =>
    match s.calls[c]?.map Call.place with
    | some .finishing =>
      some (s.setPlace c (.ended (if throws then .failed else .replaced)))
    | _ => none
  | .throws c =>
    match s.calls[c]?.map Call.place with
    | some (.aborting _) | some (.shuttingDown _) => some (s.fail c)
    | _ => none
  | .operate n env op =>
    if Operation.opensFile op then none else (s.perform F migrate n env op).map Prod.fst

end ReflectivePi.Replacement
