import Mathlib.Init

/-!
# Rpc — Client

The client of an agent process: requests that wait for their responses, and
listeners that are given the events. Lines, timers and the end of the process
come one at a time; in between, the listeners of one event are called one after
the other over the list as it is at that moment, and may change it. What was
settled and given is kept as a history.
-/

namespace ReflectivePi.Rpc

/-- A listener: a function of the caller, or the one that a call of `waitForIdle`
or `collectEvents` makes. -/
inductive Listener where
  | custom (fn : Nat)
  | waiter (call : Nat)
  deriving DecidableEq

/-- An element of `eventListeners`, with the number of the call that added it. -/
structure Registration where
  id : Nat
  listener : Listener
  deriving DecidableEq

/-- How a request ends. `exited` stands for the errors of a process that cannot
be used any more. -/
inductive Outcome where
  | response (id : Nat)
  | timeout
  | exited

/-- A parsed line. A response has the number of its request, if its id is one. -/
inductive Line (ε : Type) where
  | response (id : Option Nat) (data : ε)
  | event (data : ε)
  | invalid

/-- What was handed to the listeners, and which ones were registered then. -/
structure Arrival (ε : Type) where
  event : ε
  registered : List Registration
  deriving DecidableEq

/-- The loop over the listeners, in the call of one of them. -/
structure Delivery (ε : Type) extends Arrival ε where
  number : Nat
  index : Nat
  current : Registration

structure RpcClient (ε : Type) where
  running : Bool := false
  exitError : Bool := false
  requestId : Nat := 0
  pendingRequests : List Nat := []
  timers : List Nat := []
  eventListeners : List Registration := []
  registrations : Nat := 0
  waiterCalls : Nat := 0
  waiterTimers : List Nat := []
  delivery : Option (Delivery ε) := none
  settled : List (Nat × Outcome) := []
  arrivals : List (Arrival ε) := []
  given : List (Nat × Registration) := []
  removed : List (Nat × Registration) := []
  ended : List Nat := []

namespace RpcClient

variable {ε : Type} (isSettled : ε → Bool)

/-! ## Listeners -/

def onEvent (s : RpcClient ε) (listener : Listener) : RpcClient ε :=
  { s with
    eventListeners := s.eventListeners ++ [⟨s.registrations, listener⟩]
    registrations := s.registrations + 1 }

/-- The function that `onEvent` returns: it takes the first occurrence of the
listener out of the list. -/
def unsubscribe (s : RpcClient ε) (listener : Listener) : RpcClient ε :=
  match s.eventListeners.findIdx? (·.listener = listener) with
  | none => s
  | some index =>
    { s with
      eventListeners := s.eventListeners.eraseIdx index
      removed := match s.delivery, s.eventListeners[index]? with
        | some delivery, some registration => s.removed ++ [(delivery.number, registration)]
        | _, _ => s.removed }

/-- The next round of the loop over the listeners. -/
def callAt (s : RpcClient ε) (arrival : Arrival ε) (number index : Nat) : RpcClient ε :=
  match s.eventListeners[index]? with
  | none => { s with delivery := none }
  | some current =>
    { s with
      delivery := some { arrival with number, index, current }
      given := s.given ++ [(number, current)] }

def deliver (s : RpcClient ε) (event : ε) : RpcClient ε :=
  let arrival : Arrival ε := ⟨event, s.eventListeners⟩
  { s with arrivals := s.arrivals ++ [arrival] }.callAt arrival s.arrivals.length 0

/-- The called listener is done. A waiter that was given the settled event has
cleared its timer, unsubscribed and resolved. -/
def returnCall (s : RpcClient ε) (delivery : Delivery ε) : RpcClient ε :=
  match delivery.current.listener with
  | .custom _ => s.callAt delivery.toArrival delivery.number (delivery.index + 1)
  | .waiter call =>
    if isSettled delivery.event then
      let left := s.unsubscribe delivery.current.listener
      { left with
        waiterTimers := left.waiterTimers.filter (· ≠ call)
        ended := left.ended ++ [call] }.callAt
        delivery.toArrival delivery.number (delivery.index + 1)
    else s.callAt delivery.toArrival delivery.number (delivery.index + 1)

/-- `waitForIdle` and `collectEvents`. -/
def wait (s : RpcClient ε) : RpcClient ε :=
  { s.onEvent (.waiter s.waiterCalls) with
    waiterCalls := s.waiterCalls + 1
    waiterTimers := s.waiterTimers ++ [s.waiterCalls] }

def settle (s : RpcClient ε) (id : Nat) (outcome : Outcome) : RpcClient ε :=
  { s with
    pendingRequests := s.pendingRequests.filter (· ≠ id)
    timers := s.timers.filter (· ≠ id)
    settled := s.settled ++ [(id, outcome)] }

def rejectPendingRequests (s : RpcClient ε) : RpcClient ε :=
  { s with
    pendingRequests := []
    timers := s.timers.filter (· ∉ s.pendingRequests)
    settled := s.settled ++ s.pendingRequests.map fun id => (id, .exited) }

/-- `send`. A request to a process that cannot be used is rejected at once, and
takes no id. -/
def send (s : RpcClient ε) (usable : Bool) : RpcClient ε :=
  if !s.running || s.exitError then s
  else if !usable then { s with exitError := true }
  else
    let id := s.requestId + 1
    { s with
      requestId := id
      pendingRequests := s.pendingRequests ++ [id]
      timers := s.timers ++ [id] }

def handleLine (s : RpcClient ε) : Line ε → RpcClient ε
  | .response (some id) data =>
    if id ∈ s.pendingRequests then s.settle id (.response id) else s.deliver data
  | .response none data => s.deliver data
  | .event data => s.deliver data
  | .invalid => s

/-- Code of the caller can run: between two tasks, or in a listener of its own. -/
def callerRuns (s : RpcClient ε) : Bool :=
  match s.delivery with
  | none => true
  | some delivery =>
    match delivery.current.listener with
    | .custom _ => true
    | .waiter _ => false

end RpcClient

/-- A step: a call of the caller, the end of a called listener, a line, a timer,
or the end of the process. `stopped` is the end of `stop`. -/
inductive Label (ε : Type) where
  | start
  | stopped
  | exit
  | send (usable : Bool)
  | subscribe (fn : Nat)
  | unsubscribe (fn : Nat)
  | wait
  | line (line : Line ε)
  | returns
  | throws
  | timeout (id : Nat)
  | waitTimeout (call : Nat)

variable {ε : Type} (isSettled : ε → Bool)

open RpcClient in
def step (s : RpcClient ε) : Label ε → Option (RpcClient ε)
  | .start =>
    if s.callerRuns && !s.running then some { s with running := true, exitError := false }
    else none
  | .stopped =>
    if s.delivery.isNone && s.running then
      some { s with running := false, pendingRequests := [] }
    else none
  | .exit =>
    if s.delivery.isNone && s.running then
      some { s with exitError := true }.rejectPendingRequests
    else none
  | .send usable => if s.callerRuns then some (s.send usable) else none
  | .subscribe fn => if s.callerRuns then some (s.onEvent (.custom fn)) else none
  | .unsubscribe fn => if s.callerRuns then some (s.unsubscribe (.custom fn)) else none
  | .wait => if s.callerRuns then some s.wait else none
  | .line line => if s.delivery.isNone then some (s.handleLine line) else none
  | .returns => s.delivery.map (s.returnCall isSettled)
  | .throws =>
    match s.delivery with
    | none => none
    | some _ => if s.callerRuns then some { s with delivery := none } else none
  | .timeout id =>
    if s.delivery.isNone && s.timers.contains id then some (s.settle id .timeout) else none
  | .waitTimeout call =>
    if s.delivery.isNone && s.waiterTimers.contains call then
      some { s.unsubscribe (.waiter call) with
        waiterTimers := s.waiterTimers.filter (· ≠ call) }
    else none

end ReflectivePi.Rpc
