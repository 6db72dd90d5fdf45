import ReflectivePi.Session.Index

/-!
# Session — Extract

`createBranchedSession`: a session that holds one root path only. Label
and prune entries are cut out of the path and written again from the
indexes; their children are chained over them, and a compaction boundary
that named a dropped entry is moved to the next retained one.
-/

namespace ReflectivePi.Session

open ParentWalk

/-- The variables of the loop over the path. -/
structure RetainState where
  pathWithoutLabelsAndPrunes : List SessionEntry
  replacementByDroppedId : InsertionMap EntryId EntryId
  pendingDroppedIds : List EntryId
  pathParentId : Option EntryId

/-- `replacementByDroppedId.get(id) ?? id`. -/
def replaceDropped (replacement : InsertionMap EntryId EntryId) (id : EntryId) : EntryId :=
  (replacement.get? id).getD id

/-- A retained entry under its new parent; a compaction boundary follows
the replacements known so far. -/
def rechain (replacement : InsertionMap EntryId EntryId)
    (parentId : Option EntryId) (entry : SessionEntry) : SessionEntry :=
  { entry with
    parentId
    kind := match entry.kind with
      | .compaction c => .compaction { c with
            firstKeptEntryId := replaceDropped replacement c.firstKeptEntryId }
      | kind => kind }

def RetainState.step (s : RetainState) (entry : SessionEntry) : RetainState :=
  if entry.isLabelOrPrune then
    { s with pendingDroppedIds := s.pendingDroppedIds ++ [entry.id] }
  else
    let replacement := s.pendingDroppedIds.foldl
      (fun m droppedId => m.set droppedId entry.id) s.replacementByDroppedId
    { pathWithoutLabelsAndPrunes := s.pathWithoutLabelsAndPrunes
        ++ [rechain replacement s.pathParentId entry]
      replacementByDroppedId := replacement
      pendingDroppedIds := []
      pathParentId := some entry.id }

def retainPath (path : List SessionEntry) : RetainState :=
  path.foldl RetainState.step ⟨[], .empty, [], none⟩

/-! ## The records written after it -/

structure LabelToWrite where
  targetId : EntryId
  label : String
  timestamp : Nat

/-- Each label entry gets a generated id, checked against every id used
so far. -/
def labelEntries (generateId : List EntryId → EntryId) :
    List EntryId → Option EntryId → List LabelToWrite → List SessionEntry
  | _, _, [] => []
  | used, parentId, l :: rest =>
    ⟨generateId used, parentId, l.timestamp, .label l.targetId (some l.label)⟩
      :: labelEntries generateId (used ++ [generateId used]) (some (generateId used)) rest

/-- Legacy markers keep their ids and are chained one under the other. -/
def pruneEntries : Option EntryId → List PruneEntry → List SessionEntry
  | _, [] => []
  | parentId, p :: rest =>
    { p.toEntry with parentId } :: pruneEntries (some p.id) rest

namespace SessionManager

def labelsToWrite (m : SessionManager) (pathEntryIds : List EntryId) : List LabelToWrite :=
  (m.labelsById.entries.filter (fun p => decide (p.1 ∈ pathEntryIds))).map
    fun p => ⟨p.1, p.2, (m.labelTimestampsById.get? p.1).getD 0⟩

/-- The legacy baseline, markers of sibling branches included. -/
def prunesToWrite (m : SessionManager) (pathEntryIds : List EntryId) : List PruneEntry :=
  m.legacyPruneChanges.values.filter
    fun p => decide (p.targetId ∈ pathEntryIds)

/-- The entries of the extracted session. The persisted and the in-memory
branch of the source build the same list; they differ in the session file
they leave behind. -/
def extractedEntries (m : SessionManager)
    (generateId : List EntryId → EntryId) (path : List SessionEntry) : List SessionEntry :=
  let retained := (retainPath path).pathWithoutLabelsAndPrunes
  let pathEntryIds := retained.map SessionEntry.id
  let prunes := m.prunesToWrite pathEntryIds
  let labels := labelEntries generateId (pathEntryIds ++ prunes.map PruneEntry.id)
    (lastKey SessionEntry.id none retained) (m.labelsToWrite pathEntryIds)
  retained ++ labels ++ pruneEntries (lastKey SessionEntry.id none (retained ++ labels)) prunes

def createBranchedSession (m : SessionManager)
    (generateId : List EntryId → EntryId) (newSessionId : String)
    (leafId : EntryId) : Except String SessionManager :=
  let path := branchPath m.entries (some leafId)
  if path.isEmpty then .error s!"Entry {leafId.val} not found"
  else
    .ok (buildIndex { m with
        sessionId := newSessionId
        entries := m.extractedEntries generateId path })

/-- The in-memory indexes are the ones `_buildIndex` would compute. -/
structure Indexed (m : SessionManager) : Prop where
  labels : m.labelsById = m.buildIndex.labelsById
  timestamps : m.labelTimestampsById = m.buildIndex.labelTimestampsById
  legacy : m.legacyPruneChanges = m.buildIndex.legacyPruneChanges

end SessionManager

end ReflectivePi.Session
