import ReflectivePi.Lib.ParentWalk
import ReflectivePi.Session.Entry

/-!
# Session — Projection

From the entries of a session and a leaf to what the model sees: the
root path, the compaction-aware selection of that path, the branch-local
edits over the legacy global markers, and the projected messages.

Everything after the path is a function of the path alone
(`selectContextEntries`, `projectPath`), so a statement about one branch
never mentions the rest of the tree.
-/

namespace ReflectivePi.Session

open ParentWalk

/-- The root path to a leaf id: `getBranch`. -/
def branchPath (entries : List SessionEntry) (leafId : Option EntryId) : List SessionEntry :=
  ancestry SessionEntry.id SessionEntry.parentId entries leafId

/-- The `leafId` argument of the projection functions: absent, `null`, or
an id. -/
inductive LeafArg where
  | undefined
  | null
  | entry (id : EntryId)

def LeafArg.ofLeaf : Option EntryId → LeafArg
  | none => .null
  | some id => .entry id

/-- Walk to the root from the given leaf. An absent or unknown leaf falls
back to the last entry; `null` is the empty path. -/
def buildSessionPath (entries : List SessionEntry) (leafId : LeafArg) : List SessionEntry :=
  let last := (entries.getLast?).map SessionEntry.id
  match leafId with
  | .null => []
  | .undefined => branchPath entries last
  | .entry id =>
    match lookup SessionEntry.id entries id with
    | some _ => branchPath entries (some id)
    | none => branchPath entries last

/-- The last compaction entry of the path. -/
def newestCompaction (path : List SessionEntry) : Option (SessionEntry × CompactionEntry) :=
  path.foldl (fun acc e =>
    match e.kind with
    | .compaction c => some (e, c)
    | _ => acc) none

/-- The loop over the entries before the compaction: from the first kept
id on, everything but raw system messages. -/
def keptEntries (firstKeptEntryId : EntryId) :
    Bool → List SessionEntry → List SessionEntry
  | _, [] => []
  | found, e :: rest =>
    let found := found || decide (e.id = firstKeptEntryId)
    if found && !e.isRawSystem then e :: keptEntries firstKeptEntryId found rest
    else keptEntries firstKeptEntryId found rest

/-- The body of `buildContextEntries` once the path is known. -/
def selectContextEntries (path : List SessionEntry) : List SessionEntry :=
  match newestCompaction path with
  | none => path
  | some (e, c) =>
    match path.findIdx? (fun x => x.id = e.id) with
    | none => path
    | some i =>
      e :: keptEntries c.firstKeptEntryId false (path.take i) ++ path.drop (i + 1)

/-- Build the active, compaction-aware session entry list. -/
def buildContextEntries (entries : List SessionEntry) (leafId : LeafArg) : List SessionEntry :=
  selectContextEntries (buildSessionPath entries leafId)

/-! ## Context changes -/

/-- The change in force for one entry: a branch-local edit or a legacy
global marker. -/
inductive ResolvedContextChange where
  | edit (replacement : Option Content) (curation : Option Curation)
  | prune (entry : PruneEntry)

abbrev ContextChanges := InsertionMap EntryId ResolvedContextChange

/-- Read legacy markers in file order; an `included` one restores. -/
def legacyBaseline (entries : List SessionEntry) : ContextChanges :=
  entries.foldl (fun changes e =>
    match e.toPrune? with
    | none => changes
    | some p =>
      match p.state with
      | .included => changes.delete p.targetId
      | _ => changes.set p.targetId (.prune p)) InsertionMap.empty

/-- What one path entry does to the changes in force. -/
def applyContextChange (changes : ContextChanges) (e : SessionEntry) : ContextChanges :=
  match e.kind with
  | .contextEdit targetId replacement curation =>
    changes.set targetId (.edit replacement curation)
  | .contextEditCancel targetId => changes.delete targetId
  | _ => changes

/-- The manager's index of legacy markers, seen as changes. -/
def legacyChanges (legacy : InsertionMap EntryId PruneEntry) : ContextChanges :=
  legacy.entries.foldl (fun changes p => changes.set p.1 (.prune p.2)) InsertionMap.empty

/-- Legacy global baseline, overridden by edit and cancel entries on the
selected ancestry. -/
def resolveContextChanges (entries path : List SessionEntry)
    (legacyPruneChanges : Option (InsertionMap EntryId PruneEntry)) : ContextChanges :=
  let baseline := match legacyPruneChanges with
    | some legacy => legacyChanges legacy
    | none => legacyBaseline entries
  path.foldl applyContextChange baseline

def contextChangeState : Option ResolvedContextChange → Option PruneState
  | none => none
  | some (.prune p) =>
    match p.state with
    | .included => none
    | s => some s
  | some (.edit replacement curation) =>
    match curation with
    | some .summary => some .summarized
    | none => if replacement = none then some .excluded else none

/-! ## Projection -/

def contextBlockSummaryPrefix : String :=
  "[Summary of previously summarized context block]\n"

/-- A string replacement of block content becomes one text block. -/
def Content.asBlocks : Content → Content
  | .text s => .blocks [.text s]
  | .blocks bs => .blocks bs

def contextSummaryMessage (text : String) (timestamp : Nat) : AgentMessage :=
  createCustomMessage "context_summary" (.text text) false none timestamp

/-- One message under a content replacement. -/
def replaceMessageContent (entry : SessionEntry) (replacement : Content)
    (curation : Option Curation) : AgentMessage → AgentMessage
  | .assistant m => .assistant { m with content := some replacement.asBlocks }
  | .toolResult m => .toolResult { m with content := some replacement.asBlocks }
  | .user _ timestamp => .user (some replacement) timestamp
  | .custom m => .custom { m with content := replacement }
  | .contextStatus _ timestamp =>
    .contextStatus (contentText replacement) timestamp
  | .compactionSummary _ tokensBefore timestamp =>
    .compactionSummary (contentText replacement) tokensBefore timestamp
  | .branchSummary _ fromId timestamp =>
    .branchSummary (contentText replacement) fromId timestamp
  | .bashExecution _ =>
    contextSummaryMessage (contentText replacement) entry.timestamp
  | .system m =>
    match entry.kind, curation with
    | .message _, some .summary =>
      contextSummaryMessage (contentText replacement) entry.timestamp
    | _, _ => .system m
  | .other role => .other role

def projectContextEntry (entry : SessionEntry)
    (change : Option ResolvedContextChange) : List AgentMessage :=
  let messages := sessionEntryToContextMessages entry
  match change with
  | none => messages
  | some (.prune p) =>
    match p.state with
    | .included => messages
    | .excluded => []
    | .summarized =>
      match p.summary with
      | none => []
      | some s =>
        if s = "" then []
        else
          let summary := contextSummaryMessage (contextBlockSummaryPrefix ++ s) entry.timestamp
          -- a legacy summary replaces the conversation summary, not
          -- the saved prompt and tool state
          match entry.kind with
          | .compaction ⟨_, _, _, _, _, some m⟩ => [.system m, summary]
          | _ => [summary]
  | some (.edit none _) => []
  | some (.edit (some replacement) curation) =>
    messages.map (replaceMessageContent entry replacement curation)

structure ProjectedSessionEntry where
  sourceEntry : SessionEntry
  messages : List AgentMessage

/-- Only the newest compaction, at index zero, contributes; an older one
retained by its raw id is empty. -/
def projectEntries (changes : ContextChanges) (entries : List SessionEntry) :
    List ProjectedSessionEntry :=
  entries.mapIdx fun index e =>
    { sourceEntry := e
      messages := if e.isCompaction && decide (0 < index) then []
        else projectContextEntry e (changes.get? e.id) }

/-- The thinking level and the model selected along a path. -/
structure ContextSettings where
  thinkingLevel : String
  model : Option (String × String)

def ContextSettings.step (s : ContextSettings) (e : SessionEntry) : ContextSettings :=
  match e.kind with
  | .thinkingLevelChange level => { s with thinkingLevel := level }
  | .modelChange provider modelId => { s with model := some (provider, modelId) }
  | .message (.assistant m) => { s with model := some (m.provider, m.model) }
  | _ => s

def getSessionContextSettings (path : List SessionEntry) : ContextSettings :=
  path.foldl ContextSettings.step ⟨"off", none⟩

structure SessionProjection where
  entries : List ProjectedSessionEntry
  messages : List AgentMessage
  settings : ContextSettings

/-- The projection of a known path over known changes. -/
def projectPath (changes : ContextChanges) (path : List SessionEntry) : SessionProjection :=
  let projected := projectEntries changes (selectContextEntries path)
  { entries := projected
    messages := projected.flatMap ProjectedSessionEntry.messages
    settings := getSessionContextSettings path }

/-- Build provenance-preserving, compaction-aware model context. -/
def buildSessionProjection (entries : List SessionEntry) (leafId : LeafArg)
    (legacyPruneChanges : Option (InsertionMap EntryId PruneEntry)) : SessionProjection :=
  let path := buildSessionPath entries leafId
  projectPath (resolveContextChanges entries path legacyPruneChanges) path

end ReflectivePi.Session
