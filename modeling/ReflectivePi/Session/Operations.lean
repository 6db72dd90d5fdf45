import ReflectivePi.Session.Live

/-!
# Session — Operations

Every operation of the live manager, as one step: the appends, the moves
of the leaf, and the ways to another session. An operation that throws has
changed nothing, but for the path `setSessionFile` has taken over.
-/

namespace ReflectivePi.Session

/-- The payloads that are appended without a check. -/
def EntryKind.isPlain : EntryKind → Bool
  | .message _ | .thinkingLevelChange _ | .modelChange _ _ | .usage _ _ _
  | .custom _ | .customMessage _ _ _ _ | .sessionInfo _ => true
  | _ => false

namespace LiveManager

/-! ## Appends -/

/-- The entry an append of `kind` writes under the current leaf. -/
def newEntry (env : Environment) (m : LiveManager) (kind : EntryKind) : SessionEntry :=
  ⟨env.generateId m.byId.keys, m.leafId, env.clock m.fileEntries.length, kind⟩

def append (env : Environment) (kind : EntryKind) (m : LiveManager) :
    LiveManager × List FileWrite :=
  m.appendEntry (m.newEntry env kind)

def appendCompaction (env : Environment) (summary : String)
    (firstKeptEntryId : Option EntryId) (tokensBefore : Nat)
    (details : Option CompactionDetails) (fromHook : Bool) (m : LiveManager) :
    LiveManager × List FileWrite :=
  m.append env (.compaction
    { summary
      firstKeptEntryId :=
        firstKeptEntryId.getD (env.generateId m.byId.keys)
      tokensBefore
      details
      fromHook
      systemMessage :=
        (getCurrentSystemMessage m.buildSessionProjection.messages).map
          fun s => { s with timestamp := env.clock m.fileEntries.length } })

def getContextEditTarget (m : LiveManager) (targetId : EntryId)
    (activeBranchIds : List EntryId) : Except String SessionEntry :=
  match m.byId.get? targetId with
  | none => .error (notFoundError targetId)
  | some target =>
    if targetId ∉ activeBranchIds then
      .error s!"Entry {targetId.val} is not on the active branch"
    else if (sessionEntryToContextMessages target).isEmpty then
      .error s!"Entry {targetId.val} does not contribute editable model content"
    else .ok target

def validateContextEdit (m : LiveManager) (targetId : EntryId)
    (replacement : Option Content) (curation : Option Curation)
    (activeBranchIds : List EntryId) : Except String (Option Content) := do
  let target ← m.getContextEditTarget targetId activeBranchIds
  if target.isRawSystem && replacement.isSome && curation.isNone then
    .error s!"Entry {targetId.val} does not contribute editable model content"
  else .ok (SessionManager.normalizeReplacement target replacement)

/-- The payload a requested change is written as, when it is valid. -/
def validateContextChange (m : LiveManager) (activeBranchIds : List EntryId)
    (change : SessionManager.ContextChange) : Except String EntryKind :=
  match change.state with
  | .included => do
    let _ ← m.getContextEditTarget change.targetId activeBranchIds
    .ok (.contextEditCancel change.targetId)
  | .excluded => do
    let replacement ← m.validateContextEdit change.targetId none none activeBranchIds
    .ok (.contextEdit change.targetId replacement none)
  | .summarized => do
    let content := match change.summary with
      | none => none
      | some s =>
        if s = "" then none
        else some (Content.text (contextBlockSummaryPrefix ++ s))
    let replacement ← m.validateContextEdit change.targetId content (some .summary) activeBranchIds
    .ok (.contextEdit change.targetId replacement (some .summary))

/-- Append one entry for each payload, each under the one before. -/
def appendAll (env : Environment) (m : LiveManager) :
    List EntryKind → LiveManager × List FileWrite
  | [] => (m, [])
  | kind :: kinds =>
    let (m, writes) := m.append env kind
    let (m, rest) := m.appendAll env kinds
    (m, writes ++ rest)

/-! ## Steps -/

inductive Operation where
  /-- A read through the cache. -/
  | read
  | append (kind : EntryKind) (plain : kind.isPlain = true)
  | appendCompaction (summary : String) (firstKeptEntryId : Option EntryId)
      (tokensBefore : Nat) (details : Option CompactionDetails)
      (fromHook : Bool)
  | appendContextEdit (targetId : EntryId) (replacement : Option Content)
      (curation : Option Curation)
  | appendContextEditCancel (targetId : EntryId)
  | appendLabelChange (targetId : EntryId) (label : Option String)
  | appendContextChanges (changes : List SessionManager.ContextChange)
  | branch (branchFromId : EntryId)
  | resetLeaf
  | branchWithSummary (branchFromId : Option EntryId) (summary : String)
  | createBranchedSession (leafId : EntryId)
  | newSession (options : NewSessionOptions)
  | setSessionFile (path : String) (file : SessionFile)

def done (r : LiveManager × List FileWrite) : Outcome := ⟨r.1, r.2, none⟩

def perform (migrate : List FileEntry → List FileEntry × Bool)
    (env : Environment) (m : LiveManager) : Operation → Outcome
  | .read => ⟨m.getContextChanges.2, [], none⟩
  | .append kind _ => done (m.append env kind)
  | .appendCompaction summary firstKeptEntryId tokensBefore details fromHook =>
    done (m.appendCompaction env summary firstKeptEntryId tokensBefore details fromHook)
  | .appendContextEdit targetId replacement curation =>
    match m.validateContextEdit targetId replacement curation (m.getBranch.map SessionEntry.id) with
    | .error error => ⟨m, [], some error⟩
    | .ok replacement =>
      done (m.append env (.contextEdit targetId replacement curation))
  | .appendContextEditCancel targetId =>
    match m.getContextEditTarget targetId (m.getBranch.map SessionEntry.id) with
    | .error error => ⟨m, [], some error⟩
    | .ok _ => done (m.append env (.contextEditCancel targetId))
  | .appendLabelChange targetId label =>
    if !m.byId.has targetId then ⟨m, [], some (notFoundError targetId)⟩
    else
      let e := m.newEntry env (.label targetId label)
      let (m, writes) := m.appendEntry e
      ⟨{ m with
          labelsById := indexLabel m.labelsById e
          labelTimestampsById := indexTimestamp m.labelTimestampsById e }, writes, none⟩
  | .appendContextChanges changes =>
    match changes.mapM (m.validateContextChange (m.getBranch.map SessionEntry.id)) with
    | .error error => ⟨m, [], some error⟩
    | .ok kinds => done (m.appendAll env kinds)
  | .branch branchFromId =>
    if !m.byId.has branchFromId then
      ⟨m, [], some (notFoundError branchFromId)⟩
    else ⟨{ m with leafId := some branchFromId }, [], none⟩
  | .resetLeaf => ⟨{ m with leafId := none }, [], none⟩
  | .branchWithSummary branchFromId summary =>
    match branchFromId with
    | some id =>
      if !m.byId.has id then ⟨m, [], some (notFoundError id)⟩
      else done ({ m with leafId := some id }.append env
        (.branchSummary ((m.leafId.map EntryId.val).getD "root") summary))
    | none => done ({ m with leafId := none }.append env
        (.branchSummary ((m.leafId.map EntryId.val).getD "root") summary))
  | .createBranchedSession leafId => m.createBranchedSession env leafId
  | .newSession options => m.newSession env options
  | .setSessionFile path file => m.setSessionFile migrate env path file

/-- The fields before a session is set up. -/
def blank (persist : Bool) : LiveManager where
  persist
  sessionId := ""
  sessionFile := none
  flushed := false
  fileEntries := []
  byId := .empty
  labelsById := .empty
  labelTimestampsById := .empty
  legacyPruneChanges := .empty
  contextChangesCache := none
  leafId := none

/-- The constructor: with a session file, with entries held outside the
file system, or with neither. -/
inductive Source where
  | file (path : String) (file : SessionFile)
  | entries (options : NewSessionOptions) (entries : List FileEntry)
  | new (options : NewSessionOptions)

def construct (migrate : List FileEntry → List FileEntry × Bool)
    (env : Environment) (persist : Bool) : Source → Outcome
  | .file path file => (blank persist).setSessionFile migrate env path file
  | .entries options entries =>
    if entries.isEmpty then (blank persist).newSession env options
    else done ((blank persist).loadEntries migrate env options entries)
  | .new options => (blank persist).newSession env options

end LiveManager

end ReflectivePi.Session
