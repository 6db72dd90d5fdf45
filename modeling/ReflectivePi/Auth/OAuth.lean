import Mathlib.Logic.Function.Basic
import ReflectivePi.Lib.InsertionMap

/-!
# Auth — OAuth

Processes that resolve OAuth credentials over one store. A credential that
expires soon is refreshed under the store's lock, where its expiry is checked
once more, and what the refresh returns is written before the lock is
released. A signal that has aborted is looked at before the lock is taken,
under the lock, and once more before the write.
-/

namespace ReflectivePi.Auth

structure OAuthCredential where
  access : String
  refresh : String
  expires : Int
  deriving DecidableEq

inductive Credential where
  | apiKey (key : Option String) (env : List (String × String))
  | oauth (credential : OAuthCredential)
  deriving DecidableEq

/-- The content of the store: a credential for each provider. -/
abbrev Credentials := InsertionMap String Credential

/-! ## Resolving -/

def defaultOAuthMinimumValidityMs : Int := 5 * 60 * 1000

/-- What a credential is resolved for. -/
inductive Purpose where
  /-- `resolveStoredOAuth` -/
  | request (minOAuthValidityMs : Option Int)
  /-- `resolveRefreshCredential` -/
  | modelsRefresh
  deriving DecidableEq

def Purpose.minimumValidityMs : Purpose → Int
  | .request minOAuthValidityMs =>
    max defaultOAuthMinimumValidityMs (minOAuthValidityMs.getD 0)
  | .modelsRefresh => 0

def expiresSoon (purpose : Purpose) (now : Int) (credential : OAuthCredential) : Bool :=
  now + purpose.minimumValidityMs ≥ credential.expires

inductive Outcome where
  /-- The auth that is derived from the credential. -/
  | resolved (credential : OAuthCredential)
  /-- No auth: logged out meanwhile, or aborted. -/
  | undefined
  | rejected
  /-- What is stored is no OAuth credential. -/
  | elsewhere

inductive Phase where
  /-- `credentials.read` -/
  | reading
  /-- `credentials.modify`, until it has the lock -/
  | waiting
  | locked
  /-- `oauth.refresh(current)` -/
  | refreshing (current : OAuthCredential)
  /-- The function that `modify` was called with has returned. -/
  | settled (next : Option OAuthCredential) (result : Option Credential)
  /-- The lock is still held; `none` stands for an error. -/
  | releasing (result : Option (Option Credential))
  | finished (outcome : Outcome)

/-- The lock is held. -/
def Phase.holds : Phase → Bool
  | .locked | .refreshing _ | .settled _ _ | .releasing _ => true
  | _ => false

structure AuthCall where
  providerId : String
  purpose : Purpose
  aborted : Bool := false
  phase : Phase := .reading

/-- The first check, on what has been read, which may be old. -/
def AuthCall.checked (call : AuthCall) (now : Int) (stored : Option Credential) : Phase :=
  match stored with
  | some (.oauth credential) =>
    if !expiresSoon call.purpose now credential then .finished (.resolved credential)
    else
      match call.purpose, call.aborted with
      | .modelsRefresh, true => .finished .undefined
      | _, _ => .waiting
  | _ => .finished .elsewhere

/-- The check under the lock. -/
def AuthCall.enter (call : AuthCall) (now : Int) (current : Option Credential) : Phase :=
  if call.aborted then .releasing none
  else
    match current with
    | some (.oauth credential) =>
      if expiresSoon call.purpose now credential then .refreshing credential
      else .settled none current
    | _ => .settled none current

/-- What becomes of the result of `modify`. -/
def AuthCall.outcome (call : AuthCall) (now : Int) : Option (Option Credential) → Outcome
  | none => .rejected
  | some (some (.oauth credential)) =>
    match call.purpose with
    | .request (some _) =>
      if expiresSoon call.purpose now credential then .rejected else .resolved credential
    | _ => .resolved credential
  | some _ => .undefined

/-! ## The processes and the store -/

inductive AuthEvent where
  | refreshStarted (id : Nat) (providerId token : String)
  | refreshReturned (id : Nat) (providerId token : String) (credential : OAuthCredential)
  | wrote (id : Nat) (providerId : String) (credential : OAuthCredential)
  | released (id : Nat)
  deriving DecidableEq

structure AuthState where
  credentials : Credentials
  now : Int
  lock : Option Nat := none
  calls : Nat → Option AuthCall := fun _ => none
  events : List AuthEvent := []

inductive AuthStep where
  | call (id : Nat) (providerId : String) (purpose : Purpose)
  | abort (id : Nat)
  | tick (now : Int)
  | read (id : Nat) (stored : Option Credential)
  | acquire (id : Nat)
  | lockTimeout (id : Nat)
  | enter (id : Nat)
  | refreshReturns (id : Nat) (credential : OAuthCredential)
  | refreshFails (id : Nat)
  | write (id : Nat)
  | release (id : Nat)

namespace AuthState

def put (s : AuthState) (id : Nat) (call : AuthCall) : AuthState :=
  { s with calls := Function.update s.calls id (some call) }

def log (s : AuthState) (events : List AuthEvent) : AuthState :=
  { s with events := s.events ++ events }

/-- The step of a call that is under way. -/
def advance (s : AuthState) (id : Nat) (call : AuthCall) : AuthStep → Option AuthState
  | .abort _ => some (s.put id { call with aborted := true })
  | .read _ stored =>
    match call.phase with
    | .reading => some (s.put id { call with phase := call.checked s.now stored })
    | _ => none
  | .acquire _ =>
    match call.phase with
    | .waiting =>
      if call.aborted then some (s.put id { call with phase := .finished .rejected })
      else
        match s.lock with
        | none => some { s.put id { call with phase := .locked } with lock := some id }
        | some _ => none
    | _ => none
  | .lockTimeout _ =>
    match call.phase with
    | .waiting => some (s.put id { call with phase := .finished .rejected })
    | _ => none
  | .enter _ =>
    match call.phase with
    | .locked =>
      let phase := call.enter s.now (s.credentials.get? call.providerId)
      let s := s.put id { call with phase }
      match phase with
      | .refreshing current =>
        some (s.log [.refreshStarted id call.providerId current.refresh])
      | _ => some s
    | _ => none
  | .refreshReturns _ credential =>
    match call.phase with
    | .refreshing current =>
      some ((s.put id { call with
        phase := .settled (some credential) (some (.oauth credential)) }).log
          [.refreshReturned id call.providerId current.refresh credential])
    | _ => none
  | .refreshFails _ =>
    match call.phase with
    | .refreshing _ => some (s.put id { call with phase := .releasing none })
    | _ => none
  | .write _ =>
    match call.phase with
    | .settled next result =>
      -- `throwIfAborted` once more, also when there is something to write
      if call.aborted then some (s.put id { call with phase := .releasing none })
      else
        let s := s.put id { call with phase := .releasing (some result) }
        match next with
        | some credential =>
          some ({ s with
            credentials := s.credentials.set call.providerId (.oauth credential) }.log
              [.wrote id call.providerId credential])
        | none => some s
    | _ => none
  | .release _ =>
    match call.phase with
    | .releasing result =>
      some ({ s.put id { call with phase := .finished (call.outcome s.now result) } with
        lock := none }.log [.released id])
    | _ => none
  | _ => none

def step (s : AuthState) (label : AuthStep) : Option AuthState :=
  match label with
  | .call id providerId purpose =>
    match s.calls id with
    | none => some (s.put id { providerId, purpose })
    | some _ => none
  | .tick now => some { s with now }
  | .abort id | .read id _ | .acquire id | .lockTimeout id | .enter id | .refreshReturns id _
  | .refreshFails id | .write id | .release id =>
    (s.calls id).bind fun call => s.advance id call label

end AuthState

end ReflectivePi.Auth
