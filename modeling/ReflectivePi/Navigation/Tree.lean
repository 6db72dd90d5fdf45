import ReflectivePi.Navigation.Collect

/-!
# Navigation — Tree

`AgentSession.navigateTree`: from the leaf to another entry of the session
tree, with or without a summary of what is left behind.

It waits up to three times: for the `session_before_tree` hook, for the
credentials of the summary and for the summary. What others write to the
session while it waits comes with the answer that ends the wait. The
handlers of `session_tree` run on the state it leaves; restoring the tools
and the instructions for the summary are left out.
-/

namespace ReflectivePi.Navigation

open ParentWalk Session LiveManager

/-! ## State -/

/-- What a navigation reads and writes of the agent session. -/
structure State where
  manager : LiveManager
  /-- `agent.state.messages`. -/
  messages : List AgentMessage
  isStreaming : Bool
  isCompacting : Bool
  hasModel : Bool

/-- A write of somebody else, and whether the context is refreshed after
it. -/
structure Write where
  op : Operation
  refresh : Bool

def Write.appends (write : Write) : Bool := write.op.spares []

/-- `recordBashResult` outside of a run. -/
def recordBashResult (bash : BashExecutionMessage) : Write :=
  ⟨.append (.message (.bashExecution bash)) rfl, true⟩

namespace State

variable (migrate : List FileEntry → List FileEntry × Bool) (env : Environment)

def refreshFinalizedContext (s : State) : State :=
  { s with messages := s.manager.buildSessionProjection.messages }

/-- An operation of the session manager, and the error it threw. -/
def perform (s : State) (op : Operation) : State × Option String :=
  let outcome := s.manager.perform migrate env op
  ({ s with manager := outcome.manager }, outcome.error)

def write (s : State) (w : Write) : State :=
  let s := (s.perform migrate env w.op).1
  if w.refresh then s.refreshFinalizedContext else s

def writeAll (s : State) (ws : List Write) : State :=
  ws.foldl (write migrate env) s

end State

/-! ## What it is told -/

structure NavigateOptions where
  summarize : Bool := false
  label : Option String := none

structure SessionBeforeTreeResult where
  cancel : Bool := false
  summary : Option String := none
  label : Option String := none

structure BranchSummaryResult where
  summary : Option String := none
  aborted : Bool := false
  error : Option String := none

/-- What the navigation waits for, each with what is written meanwhile. -/
structure Awaits where
  /-- The `session_before_tree` event, when it has handlers. -/
  hook : Option (List Write × Except String SessionBeforeTreeResult)
  /-- `_getSummarizationRequestAuth`. -/
  auth : List Write × Except String Unit
  /-- `generateBranchSummary`. -/
  summary : List Write × Except String BranchSummaryResult
  /-- The text and time of the status note, when the usage is known. -/
  status : Option (String × Nat)

inductive Result where
  | threw (error : String)
  | cancelled (aborted : Bool)
  | completed (editorText : Option String) (summaryEntry : Option SessionEntry)

structure Outcome where
  state : State
  result : Result
  /-- What was written while it waited. -/
  waited : List Write
  /-- The entries that `generateBranchSummary` was called with. -/
  given : Option (List SessionEntry)

/-! ## The navigation -/

/-- The checks before the first wait. -/
def refusal (s : State) (targetId : EntryId) (options : NavigateOptions) : Option Result :=
  if s.isStreaming then
    some (.threw "Wait for the current response to finish before navigating the session tree.")
  else if s.isCompacting then
    some (.threw
      "Wait for the current compaction or tree navigation to finish before navigating the session tree.")
  else if s.manager.leafId = some targetId then some (.completed none none)
  else if options.summarize && !s.hasModel then
    some (.threw "No model available for summarization")
  else if !s.manager.byId.has targetId then some (.threw (notFoundError targetId))
  else none

/-- A text that is there and not empty. -/
def truthy (text : Option String) : Option String :=
  text.filter fun text => decide (text ≠ "")

/-- The new leaf and the text for the editor: a user or custom message is
edited again under its parent. -/
def newLeaf (targetId : EntryId) (target : SessionEntry) : Option EntryId × Option String :=
  match target.kind with
  | .message (.user content _) =>
    (target.parentId, some ((content.map contentText).getD ""))
  | .customMessage _ content _ _ =>
    (target.parentId, some ((content.map contentText).getD ""))
  | _ => (some targetId, none)

section

variable (migrate : List FileEntry → List FileEntry × Bool) (env : Environment)

def attachLabel (s : State) (id : EntryId) (label : Option String) : State × Option String :=
  match truthy label with
  | some label => s.perform migrate env (.appendLabelChange id (some label))
  | none => (s, none)

/-- The leaf is moved, with the summary under it or with none; the label goes
to the summary, else to the target. -/
def switchLeaf (s : State) (targetId : EntryId) (newLeafId : Option EntryId)
    (summaryText label : Option String) : State × Except String (Option SessionEntry) :=
  match truthy summaryText with
  | some text =>
    match s.perform migrate env (.branchWithSummary newLeafId text) with
    | (s, some error) => (s, .error error)
    | (s, none) =>
      -- the id that `branchWithSummary` returns is the new leaf
      match s.manager.leafId with
      | none => (s, .ok none)
      | some summaryId =>
        match attachLabel migrate env s summaryId label with
        | (s', some error) => (s', .error error)
        | (s', none) => (s', .ok (s.manager.byId.get? summaryId))
  | none =>
    let move : Operation := match newLeafId with
      | none => .resetLeaf
      | some id => .branch id
    match s.perform migrate env move with
    | (s, some error) => (s, .error error)
    | (s, none) =>
      match attachLabel migrate env s targetId label with
      | (s, some error) => (s, .error error)
      | (s, none) => (s, .ok none)

def insertContextStatus (s : State) (status : Option (String × Nat)) : State :=
  match status with
  | none => s
  | some (text, timestamp) =>
    let message : AgentMessage := .contextStatus text timestamp
    { (s.perform migrate env (.append (.message message) rfl)).1 with
      messages := s.messages ++ [message] }

/-- What is done once nothing is waited for any more. -/
def settle (s : State) (targetId : EntryId) (target : SessionEntry)
    (summaryText label : Option String) (status : Option (String × Nat)) : State × Result :=
  let (newLeafId, editorText) := newLeaf targetId target
  match switchLeaf migrate env s targetId newLeafId summaryText label with
  | (s, .error error) => (s, .threw error)
  | (s, .ok summaryEntry) =>
    (insertContextStatus migrate env s.refreshFinalizedContext status,
      .completed editorText summaryEntry)

/-- The part between the hook and the move: the summary, when one is to be
generated. -/
def summarizeAndSettle (s : State) (targetId : EntryId) (target : SessionEntry)
    (entriesToSummarize : List SessionEntry) (label : Option String)
    (waited : List Write) (w : Awaits) : Outcome :=
  match w.auth.2 with
  | .error error =>
    ⟨s.writeAll migrate env w.auth.1, .threw error, waited ++ w.auth.1, none⟩
  | .ok _ =>
    let s := (s.writeAll migrate env w.auth.1).writeAll migrate env w.summary.1
    let waited := waited ++ w.auth.1 ++ w.summary.1
    match w.summary.2 with
    | .error error => ⟨s, .threw error, waited, some entriesToSummarize⟩
    | .ok result =>
      if result.aborted then ⟨s, .cancelled true, waited, some entriesToSummarize⟩
      else match truthy result.error with
        | some error => ⟨s, .threw error, waited, some entriesToSummarize⟩
        | none =>
          let (s, settled) := settle migrate env s targetId target result.summary label w.status
          ⟨s, settled, waited, some entriesToSummarize⟩

def afterHook (s : State) (targetId : EntryId) (target : SessionEntry)
    (options : NavigateOptions) (entriesToSummarize : List SessionEntry)
    (waited : List Write) (answer : SessionBeforeTreeResult) (w : Awaits) : Outcome :=
  if answer.cancel then ⟨s, .cancelled false, waited, none⟩
  else
    let label := answer.label.or options.label
    let extensionSummary := if options.summarize then answer.summary else none
    if options.summarize && !entriesToSummarize.isEmpty && extensionSummary.isNone then
      summarizeAndSettle migrate env s targetId target entriesToSummarize label waited w
    else
      let (s, settled) := settle migrate env s targetId target extensionSummary label w.status
      ⟨s, settled, waited, none⟩

def navigateTree (s : State) (targetId : EntryId) (options : NavigateOptions)
    (w : Awaits) : Outcome :=
  match refusal s targetId options, s.manager.byId.get? targetId with
  | some result, _ => ⟨s, result, [], none⟩
  | none, none => ⟨s, .threw (notFoundError targetId), [], none⟩
  | none, some target =>
    let entriesToSummarize :=
      (collectEntriesForBranchSummary s.manager s.manager.leafId targetId).entries
    match w.hook with
    | none => afterHook migrate env s targetId target options entriesToSummarize [] {} w
    | some (writes, answer) =>
      let s := s.writeAll migrate env writes
      match answer with
      | .error error => ⟨s, .threw error, writes, none⟩
      | .ok answer =>
        afterHook migrate env s targetId target options entriesToSummarize writes answer w

end

end ReflectivePi.Navigation
