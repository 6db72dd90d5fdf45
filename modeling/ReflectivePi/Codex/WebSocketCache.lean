import Mathlib.Data.Int.Notation
import Mathlib.Algebra.Order.Ring.Int

/-!
# Codex — cached WebSocket connections

A Codex request takes the connection cached for its session and account, or
opens one. On a connection whose last response it continues, it sends that
response's id and only the new input items. Connections and requests are slots
of two lists; each await of the source is the end of a step.
-/

namespace ReflectivePi.Codex

variable {ι ρ β : Type}

inductive Transport where
  | sse
  | websocket
  | websocketCached
  | auto
  deriving DecidableEq

/-- A request body: its input items, and its other fields, both as the JSON
that is compared and sent. -/
structure RequestBody (ι ρ : Type) where
  previousResponseId : Option String := none
  input : Option (List ι) := none
  rest : ρ

/-- `body.input ?? []`. -/
def RequestBody.items (body : RequestBody ι ρ) : List ι := body.input.getD []

structure CachedWebSocketContinuationState (ι ρ : Type) where
  lastRequestBody : RequestBody ι ρ
  lastResponseId : String
  lastResponseItems : List ι

section Delta

variable [DecidableEq ι] [DecidableEq ρ]

def getCachedWebSocketInputDelta (body : RequestBody ι ρ)
    (continuation : CachedWebSocketContinuationState ι ρ) : Option (List ι) :=
  if body.rest ≠ continuation.lastRequestBody.rest then none
  else
    let baseline := continuation.lastRequestBody.items ++ continuation.lastResponseItems
    if body.items.length < baseline.length then none
    else if body.items.take baseline.length ≠ baseline then none
    else some (body.items.drop baseline.length)

/-- The body to send and the continuation the entry keeps. -/
def buildCachedWebSocketRequestBody
    (continuation : Option (CachedWebSocketContinuationState ι ρ)) (body : RequestBody ι ρ) :
    RequestBody ι ρ × Option (CachedWebSocketContinuationState ι ρ) :=
  match continuation with
  | none => (body, none)
  | some continuation => match getCachedWebSocketInputDelta body continuation with
    | none => (body, none)
    | some delta =>
      if continuation.lastResponseId = "" then (body, none)
      else ({ body with
        previousResponseId := some continuation.lastResponseId
        input := some delta }, some continuation)

/-- **A delta completes the continued conversation to the full input.** -/
theorem getCachedWebSocketInputDelta_some {body : RequestBody ι ρ}
    {continuation : CachedWebSocketContinuationState ι ρ} {delta : List ι}
    (h : getCachedWebSocketInputDelta body continuation = some delta) :
    body.rest = continuation.lastRequestBody.rest ∧
      continuation.lastRequestBody.items ++ continuation.lastResponseItems ++ delta
        = body.items := by
  dsimp only [getCachedWebSocketInputDelta] at h
  by_cases hrest : body.rest = continuation.lastRequestBody.rest
  · rw [if_neg (not_not.mpr hrest)] at h
    split at h
    · cases h
    · split at h
      · cases h
      · rename_i hprefix
        obtain rfl := Option.some.inj h
        refine ⟨hrest, ?_⟩
        have htake := not_not.mp hprefix
        conv_rhs => rw [← List.take_append_drop
          (continuation.lastRequestBody.items ++ continuation.lastResponseItems).length body.items]
        rw [htake]
  · rw [if_pos hrest] at h
    cases h

end Delta

/-! ## Connections and requests -/

structure CacheKey where
  sessionId : String
  accountId : String
  deriving DecidableEq

/-- A response that completed on a connection: its id, the full body of its
request, and its items. -/
structure Completed (ι ρ : Type) where
  responseId : Option String
  request : RequestBody ι ρ
  items : List ι

/-- A connection. `key` is the place of its entry in the cache, none if it was
opened for one request only; `last` and `dropped` record what happened on it. -/
structure Connection (ι ρ : Type) where
  key : Option CacheKey
  busy : Bool := true
  createdAt : ℤ
  idleTimer : Bool := false
  continuation : Option (CachedWebSocketContinuationState ι ρ) := none
  /-- The last response completed on the connection. -/
  last : Option (Completed ι ρ) := none
  /-- A request on it failed or was aborted, or it was closed on release. -/
  dropped : Bool := false

/-- The errors the request loop tells apart. -/
inductive StreamError where
  | previousResponseNotFound
  | connectionLimitReached
  | nonTransport
  | transport
  deriving DecidableEq

/-- How `processWebSocketStream` comes back: with a response, whose status may
be an error, or with an exception, before or after the first event. -/
inductive StreamResult where
  | responded (errorStatus : Bool)
  | threw (error : StreamError) (started : Bool)

inductive Ending where
  | done
  | failed
  | fellBackToSse

/-- Where a request is: opening a connection, for the cache or for itself
alone; before its send; in its stream; back in the request loop, with the
connection it gave back to the cache; over. -/
inductive RequestPhase where
  | connecting (shared : Bool)
  | acquired (id : Nat)
  | streaming (id : Nat)
  | returned (kept : Option Nat) (result : StreamResult)
  | over (ending : Ending)

/-- What a message has so far: its blocks and the response's id. -/
structure Output (β : Type) where
  blocks : List β := []
  responseId : Option String := none

structure Request (ι ρ β : Type) where
  sessionId : Option String
  accountId : String
  transport : Transport
  body : RequestBody ι ρ
  output : Output β := {}
  aborted : Bool := false
  retriedConnectionLimit : Bool := false
  retriedMissingContinuation : Bool := false
  phase : RequestPhase := .over .fellBackToSse

def Request.connection? (request : Request ι ρ β) : Option Nat :=
  match request.phase with
  | .acquired id => some id
  | .streaming id => some id
  | _ => none

def Request.key? (request : Request ι ρ β) : Option CacheKey :=
  request.sessionId.map fun sessionId => { sessionId, accountId := request.accountId }

/-- `transport === "websocket-cached" || transport === "auto"`. -/
def Request.useCachedContext (request : Request ι ρ β) : Bool :=
  request.transport == .websocketCached || request.transport == .auto

/-- A request as it was sent: the connection then, the full body and the body
that was sent. -/
structure SentRequest (ι ρ : Type) where
  id : Nat
  connection : Connection ι ρ
  full : RequestBody ι ρ
  body : RequestBody ι ρ

/-- What the code reads when it runs: the clock, and whether the socket it
looks at is open. -/
structure SocketEnv where
  now : ℤ
  reusable : Bool := true

structure Sockets (ι ρ β : Type) where
  connections : List (Connection ι ρ) := []
  /-- `websocketSessionCache`. -/
  cache : CacheKey → Option Nat := fun _ => none
  /-- `websocketSseFallbackSessions`. -/
  fallback : List String := []
  requests : List (Request ι ρ β) := []
  sent : List (SentRequest ι ρ) := []

def sessionWebSocketMaxAgeMs : ℤ := 55 * 60 * 1000

def isWebSocketSessionExpired (connection : Connection ι ρ) (now : ℤ) : Bool :=
  decide (now - connection.createdAt ≥ sessionWebSocketMaxAgeMs)

namespace Sockets

def setConnection (s : Sockets ι ρ β) (id : Nat) (connection : Connection ι ρ) : Sockets ι ρ β :=
  { s with connections := s.connections.set id connection }

def setRequest (s : Sockets ι ρ β) (r : Nat) (request : Request ι ρ β) : Sockets ι ρ β :=
  { s with requests := s.requests.set r request }

/-- The cache loses its entry under the key, if it is the given one. -/
def forget (s : Sockets ι ρ β) (key : CacheKey) (id : Nat) : Sockets ι ρ β :=
  { s with cache := fun key' =>
      if key' = key ∧ s.cache key' = some id then none else s.cache key' }

/-- `acquireWebSocket` up to its first await. -/
def acquire (s : Sockets ι ρ β) (request : Request ι ρ β) (env : SocketEnv) :
    Sockets ι ρ β × RequestPhase :=
  match request.key? with
  | none => (s, .connecting false)
  | some key => match s.cache key with
    | none => (s, .connecting true)
    | some id => match s.connections[id]? with
      | none => (s, .connecting true)
      | some cached =>
        let cached := { cached with idleTimer := false }
        if !cached.busy && isWebSocketSessionExpired cached env.now then
          ((s.setConnection id cached).forget key id, .connecting true)
        else if !cached.busy && env.reusable then
          (s.setConnection id { cached with busy := true }, .acquired id)
        else if cached.busy then (s.setConnection id cached, .connecting false)
        else ((s.setConnection id cached).forget key id, .connecting true)

/-- An attempt of the request loop. -/
def startAttempt (s : Sockets ι ρ β) (r : Nat) (request : Request ι ρ β) (env : SocketEnv) :
    Sockets ι ρ β :=
  let (s, phase) := s.acquire request env
  s.setRequest r { request with phase }

/-- `isWebSocketSseFallbackActive`. -/
def fallbackActive (s : Sockets ι ρ β) (sessionId : Option String) : Bool :=
  match sessionId with
  | none => false
  | some sessionId => s.fallback.contains sessionId

def recordFailure (s : Sockets ι ρ β) (sessionId : Option String) : Sockets ι ρ β :=
  match sessionId with
  | none => s
  | some sessionId => { s with fallback := sessionId :: s.fallback }

/-- `stream` from the end of its payload hook. -/
def begin (s : Sockets ι ρ β) (sessionId : Option String) (accountId : String)
    (transport : Transport) (body : RequestBody ι ρ) (env : SocketEnv) : Sockets ι ρ β :=
  let request : Request ι ρ β := { sessionId, accountId, transport, body }
  let s' := { s with requests := s.requests ++ [request] }
  if transport ≠ .sse ∧ s.fallbackActive sessionId = false then
    s'.startAttempt s.requests.length request env
  else s'

/-- The connection of the request has opened. -/
def connected (s : Sockets ι ρ β) (r : Nat) (request : Request ι ρ β) (shared : Bool)
    (env : SocketEnv) : Sockets ι ρ β :=
  let id := s.connections.length
  let key := if shared then request.key? else none
  let connection : Connection ι ρ := { key, createdAt := env.now }
  let s := { s with
    connections := s.connections ++ [connection]
    cache := fun key' => if key = some key' then some id else s.cache key' }
  s.setRequest r { request with phase := .acquired id }

section Send

variable [DecidableEq ι] [DecidableEq ρ]

/-- The body the request sends on the connection, and the continuation the
connection keeps. -/
def requestBody (request : Request ι ρ β) (connection : Connection ι ρ) :
    RequestBody ι ρ × Option (CachedWebSocketContinuationState ι ρ) :=
  if request.useCachedContext && connection.key.isSome then
    buildCachedWebSocketRequestBody connection.continuation request.body
  else (request.body, connection.continuation)

/-- `processWebSocketStream` from the acquired connection to the send. -/
def send (s : Sockets ι ρ β) (r : Nat) (request : Request ι ρ β) (id : Nat)
    (connection : Connection ι ρ) : Sockets ι ρ β :=
  let (body, continuation) := requestBody request connection
  { (s.setConnection id { connection with continuation }).setRequest r
      { request with phase := .streaming id } with
    sent := s.sent ++ [{ id, connection, full := request.body, body }] }

end Send

/-- `release({ keep })`: the state and the connection that stays in use. -/
def release (s : Sockets ι ρ β) (id : Nat) (connection : Connection ι ρ) (keep : Bool)
    (env : SocketEnv) : Sockets ι ρ β × Option Nat :=
  match connection.key with
  | none => (s.setConnection id { connection with dropped := true }, none)
  | some key =>
    if !keep || !env.reusable then
      ((s.setConnection id { connection with idleTimer := false, dropped := true }).forget key id,
        none)
    else (s.setConnection id { connection with busy := false, idleTimer := true }, some id)

end Sockets

/-- What came on the stream: the last response id it named, the blocks it
added, and how it ended. -/
inductive StreamEnd (β : Type) where
  | completed (responseId : Option String) (blocks : List β) (errorStatus : Bool)
  | threw (responseId : Option String) (blocks : List β) (error : StreamError) (started : Bool)

/-- The message after a stream that named the id and added the blocks. -/
def Output.after (output : Output β) (responseId : Option String) (blocks : List β) :
    Output β where
  blocks := output.blocks ++ blocks
  responseId := responseId.or output.responseId

/-- The continuation that a completed response leaves on the connection. -/
def continuationAfter (responseItems : List β → List ι) (request : Request ι ρ β)
    (connection : Connection ι ρ) (output : Output β) :
    Option (CachedWebSocketContinuationState ι ρ) :=
  match output.responseId with
  | none => connection.continuation
  | some lastResponseId =>
    if request.useCachedContext ∧ connection.key.isSome ∧ lastResponseId ≠ "" then
      some {
        lastRequestBody := request.body
        lastResponseId
        lastResponseItems := responseItems output.blocks }
    else connection.continuation

namespace Sockets

/-- `processWebSocketStream` from the end of the stream. `responseItems` are
the input items a message is converted to. -/
def ends (responseItems : List β → List ι) (s : Sockets ι ρ β) (r : Nat)
    (request : Request ι ρ β) (id : Nat) (connection : Connection ι ρ) (env : SocketEnv) :
    StreamEnd β → Sockets ι ρ β
  | .completed responseId blocks errorStatus =>
    let output := request.output.after responseId blocks
    let completed : Completed ι ρ :=
      { responseId, request := request.body, items := responseItems blocks }
    let continuation := if request.aborted then connection.continuation
      else continuationAfter responseItems request connection output
    let (s, kept) := s.release id { connection with last := some completed, continuation }
      (!request.aborted) env
    s.setRequest r { request with output, phase := .returned kept (.responded errorStatus) }
  | .threw responseId blocks error started =>
    let output := request.output.after responseId blocks
    let (s, kept) := s.release id { connection with continuation := none } false env
    s.setRequest r { request with output, phase := .returned kept (.threw error started) }

/-- The request on the connection failed after the connection was kept. -/
def markDropped (s : Sockets ι ρ β) (kept : Option Nat) : Sockets ι ρ β :=
  match kept with
  | none => s
  | some id => { s with
      connections := s.connections.modify id fun connection =>
        { connection with dropped := true } }

/-- The request loop, from the end of `processWebSocketStream`. -/
def settles (s : Sockets ι ρ β) (r : Nat) (request : Request ι ρ β) (kept : Option Nat)
    (env : SocketEnv) : StreamResult → Sockets ι ρ β
  | .responded errorStatus =>
    if request.aborted then
      (s.markDropped kept).setRequest r { request with phase := .over .failed }
    else if errorStatus then
      ((s.markDropped kept).recordFailure request.sessionId).setRequest r
        { request with phase := .over .failed }
    else s.setRequest r { request with phase := .over .done }
  | .threw error started =>
    let limitBeforeStart := !started && error == .connectionLimitReached
    if !request.aborted && error == .previousResponseNotFound
        && !request.retriedMissingContinuation then
      s.startAttempt r { request with retriedMissingContinuation := true } env
    else if !request.aborted && limitBeforeStart && !request.retriedConnectionLimit then
      s.startAttempt r { request with retriedConnectionLimit := true } env
    else if request.aborted || (error != .transport && !limitBeforeStart) then
      s.setRequest r { request with phase := .over .failed }
    else (s.recordFailure request.sessionId).setRequest r
      { request with phase := .over (if started then .failed else .fellBackToSse) }

/-- The timer that `scheduleSessionWebSocketExpiry` armed. -/
def idleTimerFires (s : Sockets ι ρ β) (id : Nat) (connection : Connection ι ρ) : Sockets ι ρ β :=
  let s := s.setConnection id { connection with idleTimer := false }
  if connection.busy then s
  else match connection.key with
    | none => s
    | some key => s.forget key id

/-- `closeOpenAICodexWebSocketSessions`, for one session or for all. -/
def closeSessions (s : Sockets ι ρ β) (sessionId : Option String) : Sockets ι ρ β :=
  let closes (key : CacheKey) : Bool := sessionId.isNone || sessionId == some key.sessionId
  { s with
    connections := s.connections.mapIdx fun id connection =>
      match connection.key with
      | none => connection
      | some key =>
        if closes key ∧ s.cache key = some id then { connection with idleTimer := false }
        else connection
    cache := fun key => if closes key then none else s.cache key }

/-- `resetOpenAICodexWebSocketDebugStats`, for one session or for all. -/
def resetStats (s : Sockets ι ρ β) (sessionId : Option String) : Sockets ι ρ β :=
  { s with fallback := match sessionId with
      | none => []
      | some sessionId => s.fallback.filter (· ≠ sessionId) }

end Sockets

inductive SocketEvent (ι ρ β : Type) where
  | begin (sessionId : Option String) (accountId : String) (transport : Transport)
      (body : RequestBody ι ρ)
  | abort (r : Nat)
  | connected (r : Nat)
  | connectFails (r : Nat)
  | send (r : Nat)
  | ends (r : Nat) (ending : StreamEnd β)
  | settles (r : Nat)
  | idleTimerFires (id : Nat)
  | closeSessions (sessionId : Option String)
  | resetStats (sessionId : Option String)

/-- What an event does; `none` if it cannot happen then. -/
def Sockets.step [DecidableEq ι] [DecidableEq ρ] (responseItems : List β → List ι)
    (s : Sockets ι ρ β) : SocketEnv × SocketEvent ι ρ β → Option (Sockets ι ρ β)
  | (env, .begin sessionId accountId transport body) =>
    some (s.begin sessionId accountId transport body env)
  | (_, .abort r) => match s.requests[r]? with
      | none => none
      | some request => some (s.setRequest r { request with aborted := true })
  | (env, .connected r) => match s.requests[r]? with
      | none => none
      | some request => match request.phase with
        | .connecting shared => some (s.connected r request shared env)
        | _ => none
  | (_, .connectFails r) => match s.requests[r]? with
      | none => none
      | some request => match request.phase with
        | .connecting _ =>
          some (s.setRequest r { request with phase := .returned none (.threw .transport false) })
        | _ => none
  | (_, .send r) => match s.requests[r]? with
      | none => none
      | some request => match request.phase with
        | .acquired id => (s.connections[id]?).map (s.send r request id)
        | _ => none
  | (env, .ends r ending) => match s.requests[r]? with
      | none => none
      | some request => match request.phase with
        | .streaming id => (s.connections[id]?).map fun connection =>
          s.ends responseItems r request id connection env ending
        | _ => none
  | (env, .settles r) => match s.requests[r]? with
      | none => none
      | some request => match request.phase with
        | .returned kept result => some (s.settles r request kept env result)
        | _ => none
  | (_, .idleTimerFires id) => match s.connections[id]? with
      | none => none
      | some connection =>
        if connection.idleTimer then some (s.idleTimerFires id connection) else none
  | (_, .closeSessions sessionId) => some (s.closeSessions sessionId)
  | (_, .resetStats sessionId) => some (s.resetStats sessionId)

end ReflectivePi.Codex
