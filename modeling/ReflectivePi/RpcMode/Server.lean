import Mathlib.Logic.Function.Basic
import ReflectivePi.Delta.Json

/-!
# RpcMode — Server

The input lines of RPC mode and what is still to be done for each: commands that
answer with what their handler returns, prompts that answer when their preflight
has passed or failed, and answers to the dialogs of extensions. A prompt that
arrives while the session tells its listeners that the agent has settled waits
with the other deferred actions, which run one after another afterwards.
-/

namespace ReflectivePi.RpcMode

open Delta (Json JsString js)

/-! ## Values -/

theorem lawfulBEq_jsString : LawfulBEq JsString := inferInstance

instance decidableMemJsString (text : JsString) (texts : List JsString) :
    Decidable (text ∈ texts) :=
  @List.instDecidableMemOfLawfulBEq JsString _ lawfulBEq_jsString text texts

/-- `value.name` of a parsed value, which is `undefined` but for objects. -/
def property (name : String) : Json → Option Json
  | .obj fields => InsertionMap.findEntry (js name) fields
  | _ => none

def isText (text : String) : Option Json → Bool
  | some (.str s) => s = js text
  | _ => false

def isNull : Json → Bool
  | .null => true
  | _ => false

/-- What can be thrown: `String(error)` fails for an object without a string, and
`error.message` for `null` and `undefined`. -/
inductive Thrown where
  | printable
  | unprintable
  | nullish
  deriving DecidableEq

structure Response where
  id : Option Json
  command : Option Json
  success : Bool

/-! ## The state -/

/-- Who waits for a call of `prompt`: the line, or a loop over deferred actions. -/
inductive Context where
  | direct
  | loop (d : Nat)
  deriving DecidableEq

/-- What is under way for a line. -/
inductive Work where
  | idle
  | command
  | checking (session : Nat) (context : Context)
  | running (context : Context)
  deriving DecidableEq

structure Handling where
  id : Option Json
  type : Option Json
  isUiResponse : Bool
  work : Work

/-- A deferred action: the prompt of a line, or a run for a custom message. -/
inductive Action where
  | prompt (session line : Nat)
  | run
  deriving DecidableEq

/-- Where an action waits: in `_deferredSettledActions` of a session, or in the list
that a loop has taken from there. -/
inductive Place where
  | deferred (session : Nat)
  | loop (d : Nat)
  deriving DecidableEq

structure Server where
  session : Nat := 0
  isEmittingAgentSettled : Nat → Bool := fun _ => false
  emissions : Nat → Nat := fun _ => 0
  actions : List (Place × Action) := []
  loops : Nat := 0
  /-- The loops that wait for the run of a custom message. -/
  runs : List Nat := []
  handlings : List Handling := []
  responses : List (Nat × Response) := []
  /-- A promise was rejected that nobody handles. -/
  unhandled : Bool := false
  pendingExtensionRequests : List JsString := []
  dialogs : List JsString := []
  settled : List JsString := []

def Action.line? : Action → Option Nat
  | .prompt _ n => some n
  | .run => none

namespace Server

def output (s : Server) (n : Nat) (response : Response) : Server :=
  { s with responses := s.responses ++ [(n, response)] }

def setWork (s : Server) (n : Nat) (work : Work) : Server :=
  { s with handlings := s.handlings.modify n fun handling => { handling with work } }

/-- The entry of `prompt`. -/
def prompt (s : Server) (session n : Nat) (context : Context) : Server :=
  if s.isEmittingAgentSettled session then
    { s with actions := s.actions ++ [(.deferred session, .prompt session n)] }
  else s.setWork n (.checking session context)

/-- `cleanup` and `resolve` of a dialog. -/
def settleDialog (s : Server) (id : JsString) : Server :=
  { s with
    pendingExtensionRequests := s.pendingExtensionRequests.erase id
    settled := s.settled ++ [id] }

def answerDialog (s : Server) (response : Json) : Server :=
  match property "id" response with
  | some (.str id) => if id ∈ s.pendingExtensionRequests then s.settleDialog id else s
  | _ => s

def receive (s : Server) (handling : Handling) : Server :=
  { s with handlings := s.handlings ++ [handling] }

/-- `handleInputLine` up to its first wait, with what `JSON.parse` makes of the line. -/
def handleInputLine (s : Server) (parsed : Option Json) : Server :=
  let n := s.handlings.length
  match parsed with
  | none =>
    (s.receive ⟨none, none, false, .idle⟩).output n ⟨none, some (.str (js "parse")), false⟩
  | some value =>
    let id := property "id" value
    let type := property "type" value
    if isText "extension_ui_response" type then
      (s.receive ⟨id, type, true, .idle⟩).answerDialog value
    else if isNull value then
      -- `command.id` is read of `null`, and again in the `catch`
      { s.receive ⟨none, none, false, .idle⟩ with unhandled := true }
    else if isText "prompt" type then
      (s.receive ⟨id, type, false, .idle⟩).prompt s.session n .direct
    else s.receive ⟨id, type, false, .command⟩

/-- The answer to the command of a line. -/
def answer (s : Server) (n : Nat) (success : Bool) : Server :=
  match s.handlings[n]? with
  | some handling => s.output n ⟨handling.id, handling.type, success⟩
  | none => s

/-- The end of an action that a loop waits for: after a failure the loop leaves the
actions behind it. -/
def actionEnded (s : Server) (d : Nat) (failure : Option Thrown) : Server :=
  match failure with
  | none => { s with runs := s.runs.erase d }
  | some _ =>
    { s with
      runs := s.runs.erase d
      actions := s.actions.filter fun entry => entry.1 ≠ .loop d }

/-- A call of `prompt` throws before its preflight has passed. The line answers if it
waits for the call. -/
def preflightFailed (s : Server) (n : Nat) (context : Context) (thrown : Thrown) : Server :=
  match context with
  | .loop d => (s.setWork n .idle).actionEnded d (some thrown)
  | .direct =>
    if thrown = .nullish then { s.setWork n .idle with unhandled := true }
    else (s.setWork n .idle).answer n false

/-- A call of `prompt` ends after its preflight has passed. -/
def promptEnded (s : Server) (n : Nat) (context : Context) (failure : Option Thrown) : Server :=
  match context with
  | .loop d => (s.setWork n .idle).actionEnded d failure
  | .direct => s.setWork n .idle

/-- `preflightResult(true)`; a prompt that was handled or queued ends there. -/
def preflightPassed (s : Server) (n : Nat) (context : Context) (returns : Bool) : Server :=
  let answered := s.answer n true
  if returns then answered.promptEnded n context none
  else answered.setWork n (.running context)

/-- The loop waits for an action. -/
def isBusy (s : Server) (d : Nat) : Bool :=
  d ∈ s.runs || s.handlings.any fun handling =>
    match handling.work with
    | .checking _ (.loop d') | .running (.loop d') => d' = d
    | _ => false

/-- The loop begins an action. -/
def begin (s : Server) (d : Nat) (action : Action) : Server :=
  match action with
  | .run => { s with runs := d :: s.runs }
  | .prompt session n => s.prompt session n (.loop d)

end Server

/-- What the handler of a command comes to. -/
inductive Outcome where
  | response (success : Bool)
  | throws (thrown : Thrown)
  deriving DecidableEq

/-- Steps: a line; the end of a command; of a prompt its preflight and its end; the
rounds of `_emitAgentSettled`; the actions of a loop; another session; dialogs. -/
inductive Label where
  | line (text : JsString)
  | finish (n : Nat) (outcome : Outcome)
  | passes (n : Nat) (returns : Bool)
  | fails (n : Nat) (thrown : Thrown)
  | ends (n : Nat) (failure : Option Thrown)
  | deferRun (session : Nat)
  | settles (session : Nat)
  | emitted (session : Nat)
  | emissionFails (session : Nat)
  | next (d : Nat)
  | runEnds (d : Nat) (failure : Option Thrown)
  | rebind (session : Nat)
  | openDialog (id : JsString)
  | skipDialog (id : JsString)
  | closeDialog (id : JsString)

open Server in
/-- The steps of the server, where `parse` is `JSON.parse`. -/
def step (parse : JsString → Option Json) (s : Server) : Label → Option Server
  | .line text => some (s.handleInputLine (parse text))
  | .finish n outcome =>
    if (s.handlings[n]?.map Handling.work) = some .command then
      match outcome with
      | .response success => some ((s.setWork n .idle).answer n success)
      | .throws .unprintable => some { s.setWork n .idle with unhandled := true }
      | .throws _ => some ((s.setWork n .idle).answer n false)
    else none
  | .passes n returns =>
    match s.handlings[n]?.map Handling.work with
    | some (.checking _ context) => some (s.preflightPassed n context returns)
    | _ => none
  | .fails n thrown =>
    match s.handlings[n]?.map Handling.work with
    | some (.checking _ context) => some (s.preflightFailed n context thrown)
    | _ => none
  | .ends n failure =>
    match s.handlings[n]?.map Handling.work with
    | some (.running context) => some (s.promptEnded n context failure)
    | _ => none
  | .deferRun session =>
    if s.isEmittingAgentSettled session then
      some { s with actions := s.actions ++ [(.deferred session, .run)] }
    else none
  | .settles session =>
    some { s with
      emissions := Function.update s.emissions session (s.emissions session + 1)
      isEmittingAgentSettled := Function.update s.isEmittingAgentSettled session true }
  | .emitted session =>
    if s.emissions session = 0 then none
    else
      some { s with
        emissions := Function.update s.emissions session (s.emissions session - 1)
        isEmittingAgentSettled := Function.update s.isEmittingAgentSettled session false
        loops := s.loops + 1
        actions := s.actions.map fun entry =>
          if entry.1 = .deferred session then (.loop s.loops, entry.2) else entry }
  | .emissionFails session =>
    if s.emissions session = 0 then none
    else
      some { s with
        emissions := Function.update s.emissions session (s.emissions session - 1)
        isEmittingAgentSettled := Function.update s.isEmittingAgentSettled session false }
  | .next d =>
    if s.isBusy d then none
    else
      match s.actions.find? fun entry => entry.1 = .loop d with
      | none => none
      | some entry => some (begin { s with actions := s.actions.erase entry } d entry.2)
  | .runEnds d failure => if d ∈ s.runs then some (s.actionEnded d failure) else none
  | .rebind session => some { s with session }
  | .openDialog id =>
    -- the identifier is a new UUID
    if id ∈ s.dialogs then none
    else
      some { s with
        dialogs := s.dialogs ++ [id]
        pendingExtensionRequests := s.pendingExtensionRequests ++ [id] }
  | .skipDialog id =>
    if id ∈ s.dialogs then none
    else some { s with dialogs := s.dialogs ++ [id], settled := s.settled ++ [id] }
  | .closeDialog id => if id ∈ s.pendingExtensionRequests then some (s.settleDialog id) else none

end ReflectivePi.RpcMode
