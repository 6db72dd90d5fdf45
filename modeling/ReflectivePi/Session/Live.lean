import ReflectivePi.Session.Extract

/-!
# Session — Live manager

The session manager with everything it keeps: the file entries with the
header, the id index, the cached effective changes, and where it writes.
Reads go through the index and the cache, as in the source; the module
`Session.Synced` shows that they agree with the entries.

A file operation is recorded as a `FileWrite`; what a file holds is the
subject of `Session.Persist`. A migration of old entries is a parameter.
-/

namespace ReflectivePi.Session

open ParentWalk

/-! ## File entries -/

structure SessionHeader where
  version : Nat
  id : String
  timestamp : Nat
  parentSession : Option String
  deriving DecidableEq

inductive FileEntry where
  | session (header : SessionHeader)
  | entry (e : SessionEntry)
  deriving DecidableEq

namespace FileEntry

def header? : FileEntry → Option SessionHeader
  | .session header => some header
  | .entry _ => none

def entry? : FileEntry → Option SessionEntry
  | .session _ => none
  | .entry e => some e

/-- `e.type === "message" && e.message.role === "assistant"`. -/
def isAssistant : FileEntry → Bool
  | .entry ⟨_, _, _, .message (.assistant _)⟩ => true
  | _ => false

end FileEntry

/-- A file operation of the manager. -/
inductive FileWrite where
  /-- All entries, one a line; `wx` fails when the file exists. -/
  | writeAll (path : String) (exclusive : Bool) (entries : List FileEntry)
  | appendLine (path : String) (entry : FileEntry)

/-- What a path holds, as far as the manager looks. -/
inductive SessionFile where
  | missing
  /-- The size is zero or not, and what `loadEntriesFromFile` returns. -/
  | present (isEmpty : Bool) (entries : List FileEntry)

structure ContextChangesCache where
  entryCount : Nat
  leafId : Option EntryId
  changes : ContextChanges

structure LiveManager where
  persist : Bool
  sessionId : String
  sessionFile : Option String
  flushed : Bool
  fileEntries : List FileEntry
  byId : InsertionMap EntryId SessionEntry
  labelsById : InsertionMap EntryId String
  labelTimestampsById : InsertionMap EntryId Nat
  legacyPruneChanges : InsertionMap EntryId PruneEntry
  contextChangesCache : Option ContextChangesCache
  leafId : Option EntryId

/-- What an operation takes from outside: generated ids, the clock, and
the ids and files of new sessions. -/
structure Environment where
  generateId : List EntryId → EntryId
  /-- The time, by the number of file entries there are. -/
  clock : Nat → Nat
  createSessionId : String
  /-- The file of a new session in the session directory, named by its time
  and its id. -/
  newSessionFile : Nat → String → String

/-- What an operation leaves behind. -/
structure Outcome where
  manager : LiveManager
  writes : List FileWrite
  error : Option String

namespace LiveManager

/-! ## Reads -/

def getEntries (m : LiveManager) : List SessionEntry :=
  m.fileEntries.filterMap FileEntry.entry?

/-- The walk to the root over the id index; no path is longer than the
entries. -/
def walk (m : LiveManager) (startId : Option EntryId) : List SessionEntry :=
  (walkUp SessionEntry.parentId m.byId.get? (m.getEntries.length + 1) startId).reverse

def getBranch (m : LiveManager) : List SessionEntry := m.walk m.leafId

/-- `buildSessionPath(entries, leafId, byId)`. -/
def sessionPath (m : LiveManager) : List SessionEntry :=
  match m.leafId with
  | none => []
  | some id =>
    match m.byId.get? id with
    | some _ => m.walk (some id)
    | none => m.walk (m.getEntries.getLast?.map SessionEntry.id)

/-- The changes a miss of the cache computes. -/
def freshContextChanges (m : LiveManager) : ContextChanges :=
  resolveContextChanges m.getEntries m.getBranch (some m.legacyPruneChanges)

/-- `_getContextChanges`: the changes, and the manager with its cache. -/
def getContextChanges (m : LiveManager) : ContextChanges × LiveManager :=
  let miss := (m.freshContextChanges, { m with
    contextChangesCache := some
      ⟨m.fileEntries.length, m.leafId, m.freshContextChanges⟩ })
  match m.contextChangesCache with
  | none => miss
  | some cached =>
    if cached.entryCount = m.fileEntries.length ∧ cached.leafId = m.leafId then
      (cached.changes, m)
    else miss

def getPruneState (m : LiveManager) (id : EntryId) : Option PruneState :=
  contextChangeState (m.getContextChanges.1.get? id)

def getPruneSummary (m : LiveManager) (id : EntryId) : Option String :=
  SessionManager.contextChangeSummary (m.getContextChanges.1.get? id)

def getLabel (m : LiveManager) (id : EntryId) : Option String :=
  m.labelsById.get? id

/-- Not hidden by the change in force. -/
def isIncluded (changes : ContextChanges) (e : SessionEntry) : Bool :=
  match contextChangeState (changes.get? e.id) with
  | some .excluded => false
  | some .summarized => false
  | _ => true

def buildContextEntries (m : LiveManager) : List SessionEntry :=
  (selectContextEntries m.sessionPath).filter (isIncluded m.getContextChanges.1)

def buildSessionProjection (m : LiveManager) : SessionProjection :=
  projectPath (resolveContextChanges m.getEntries m.sessionPath
    (some m.legacyPruneChanges)) m.sessionPath

def hasAssistant (m : LiveManager) : Bool :=
  m.fileEntries.any FileEntry.isAssistant

def rewriteFile (m : LiveManager) : List FileWrite :=
  match m.persist, m.sessionFile with
  | true, some path => [.writeAll path false m.fileEntries]
  | _, _ => []

/-- `_persist`. -/
def persistEntry (m : LiveManager) (e : SessionEntry) : LiveManager × List FileWrite :=
  match m.persist, m.sessionFile with
  | true, some path =>
    if !m.hasAssistant then
      if m.flushed then (m, [.appendLine path (.entry e)])
      else ({ m with flushed := false }, [])
    else if !m.flushed then
      ({ m with flushed := true }, [.writeAll path true m.fileEntries])
    else (m, [.appendLine path (.entry e)])
  | _, _ => (m, [])

/-- `_appendEntry`. -/
def appendEntry (m : LiveManager) (e : SessionEntry) : LiveManager × List FileWrite :=
  let m := { m with
    fileEntries := m.fileEntries ++ [FileEntry.entry e]
    byId := m.byId.set e.id e
    leafId := some e.id }
  m.persistEntry e

/-! ## Sessions -/

def isAlphanumeric (c : Char) : Bool :=
  ('a' ≤ c && c ≤ 'z') || ('A' ≤ c && c ≤ 'Z') || ('0' ≤ c && c ≤ '9')

def isValidSessionId (id : String) : Bool :=
  (id.toList.head?.any isAlphanumeric) && (id.toList.getLast?.any isAlphanumeric)
    && id.toList.all fun c => isAlphanumeric c || c = '.' || c = '_' || c = '-'

def sessionIdError : String :=
  "Session id must be non-empty, contain only alphanumeric characters, '-', '_', and '.', and start and end with an alphanumeric character"

structure NewSessionOptions where
  id : Option String := none
  parentSession : Option String := none

def currentSessionVersion : Nat := 3

/-- `newSession` once its options are valid. -/
def startSession (env : Environment) (options : NewSessionOptions)
    (m : LiveManager) : LiveManager :=
  let sessionId := options.id.getD env.createSessionId
  let timestamp := env.clock m.fileEntries.length
  { m with
    sessionId
    fileEntries := [.session ⟨currentSessionVersion, sessionId, timestamp, options.parentSession⟩]
    byId := .empty
    labelsById := .empty
    labelTimestampsById := .empty
    legacyPruneChanges := .empty
    contextChangesCache := none
    leafId := none
    flushed := false
    sessionFile := if m.persist then some (env.newSessionFile timestamp sessionId)
      else m.sessionFile }

def newSession (env : Environment) (options : NewSessionOptions)
    (m : LiveManager) : Outcome :=
  if options.id.any (fun id => !isValidSessionId id) then
    ⟨m, [], some sessionIdError⟩
  else ⟨m.startSession env options, [], none⟩

/-- What one entry does to the timestamps of the labels. -/
def indexTimestamp (timestamps : InsertionMap EntryId Nat) (e : SessionEntry) :
    InsertionMap EntryId Nat :=
  match e.kind with
  | .label targetId (some label) =>
    if label = "" then timestamps.delete targetId
    else timestamps.set targetId e.timestamp
  | .label targetId none => timestamps.delete targetId
  | _ => timestamps

/-- One entry of the `_buildIndex` loop. -/
def indexEntry (m : LiveManager) (e : SessionEntry) : LiveManager :=
  { m with
    byId := m.byId.set e.id e
    leafId := some e.id
    labelsById := indexLabel m.labelsById e
    labelTimestampsById := indexTimestamp m.labelTimestampsById e
    legacyPruneChanges := indexLegacy m.legacyPruneChanges e }

def buildIndex (m : LiveManager) : LiveManager :=
  m.getEntries.foldl indexEntry { m with
      byId := .empty
      labelsById := .empty
      labelTimestampsById := .empty
      legacyPruneChanges := .empty
      contextChangesCache := none
      leafId := none }

section

-- `migrateToCurrentVersion`: the entries, and whether it changed them
variable (migrate : List FileEntry → List FileEntry × Bool)

/-- `_loadEntries`. -/
def loadEntries (env : Environment) (options : NewSessionOptions)
    (entries : List FileEntry) (m : LiveManager) : LiveManager × List FileWrite :=
  match entries.findSome? FileEntry.header? with
  | some header =>
    let (migrated, changed) := migrate entries
    let m := { m with fileEntries := migrated, sessionId := header.id }
    (m.buildIndex, if changed then m.rewriteFile else [])
  | none =>
    let m := m.startSession env options
    ({ m with fileEntries := m.fileEntries ++ entries }.buildIndex, [])

def invalidFileError (path : String) : String :=
  "Session file is not a valid rxpi session: " ++ path

/-- `_setSessionFile`. -/
def setSessionFile (env : Environment) (path : String) (file : SessionFile)
    (m : LiveManager) : Outcome :=
  let m := { m with sessionFile := some path }
  match file with
  | .missing => ⟨{ m.startSession env {} with sessionFile := some path }, [], none⟩
  | .present isEmpty [] =>
    if !isEmpty then ⟨m, [], some (invalidFileError path)⟩
    else
      let m := { m.startSession env {} with sessionFile := some path }
      ⟨{ m with flushed := true }, m.rewriteFile, none⟩
  | .present _ entries =>
    let (m, writes) := m.loadEntries migrate env {} entries
    ⟨{ m with flushed := true }, writes, none⟩

end

/-- The entries of a manager as the extraction reads them. -/
def view (m : LiveManager) : SessionManager where
  persist := m.persist
  sessionId := m.sessionId
  entries := m.getEntries
  leafId := m.leafId
  labelsById := m.labelsById
  labelTimestampsById := m.labelTimestampsById
  legacyPruneChanges := m.legacyPruneChanges

def notFoundError (id : EntryId) : String := s!"Entry {id.val} not found"

/-- The manager of the session a path is extracted to. -/
def branched (env : Environment) (path : List SessionEntry) (m : LiveManager) : LiveManager :=
  let timestamp := env.clock m.fileEntries.length
  let header : SessionHeader := ⟨currentSessionVersion, env.createSessionId,
    timestamp, if m.persist then m.sessionFile else none⟩
  { m with
    fileEntries := .session header
      :: (m.view.extractedEntries env.generateId path).map FileEntry.entry
    sessionId := env.createSessionId
    sessionFile := if m.persist then some (env.newSessionFile timestamp env.createSessionId)
      else m.sessionFile }.buildIndex

/-- The file is written now only if it contains an assistant message. -/
def writeBranched (m : LiveManager) : Outcome :=
  if m.persist then
    if m.hasAssistant then ⟨{ m with flushed := true }, m.rewriteFile, none⟩
    else ⟨{ m with flushed := false }, [], none⟩
  else ⟨m, [], none⟩

def createBranchedSession (env : Environment) (leafId : EntryId)
    (m : LiveManager) : Outcome :=
  let path := m.walk (some leafId)
  if path.isEmpty then ⟨m, [], some (notFoundError leafId)⟩
  else (m.branched env path).writeBranched

end LiveManager

end ReflectivePi.Session
