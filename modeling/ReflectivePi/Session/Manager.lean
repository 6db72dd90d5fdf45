import ReflectivePi.Session.Projection

/-!
# Session — Manager

The session manager over its in-memory entries: the indexes built from
them, the append operations and the branch-local curation writes.

The two things an append takes from outside, the id `generateId` returns
and the clock, come in as a `Stamp`; `generateId` checks its id against
the ids in use, so the lemmas below ask for a stamp whose id is new.
-/

namespace ReflectivePi.Session

open ParentWalk

/-- A generated id and the time of the append. -/
structure Stamp where
  id : EntryId
  timestamp : Nat

structure SessionManager where
  persist : Bool
  sessionId : String
  /-- `fileEntries` without the header. -/
  entries : List SessionEntry
  leafId : Option EntryId
  labelsById : InsertionMap EntryId String
  labelTimestampsById : InsertionMap EntryId Nat
  legacyPruneChanges : InsertionMap EntryId PruneEntry

namespace SessionManager

/-! ## Indexes -/

/-- One entry of the `_buildIndex` loop. -/
def indexEntry (m : SessionManager) (e : SessionEntry) : SessionManager :=
  let m := { m with leafId := some e.id }
  match e.kind with
  | .label targetId (some label) =>
    if label = "" then
      { m with
        labelsById := m.labelsById.delete targetId
        labelTimestampsById := m.labelTimestampsById.delete targetId }
    else
      { m with
        labelsById := m.labelsById.set targetId label
        labelTimestampsById := m.labelTimestampsById.set targetId e.timestamp }
  | .label targetId none =>
    { m with
      labelsById := m.labelsById.delete targetId
      labelTimestampsById := m.labelTimestampsById.delete targetId }
  | .prune targetId state summary =>
    -- restorations are retained too
    { m with
      legacyPruneChanges := m.legacyPruneChanges.set targetId
        ⟨e.id, e.parentId, e.timestamp, targetId, state, summary⟩ }
  | _ => m

/-- Rebuild every index from the entries; the leaf is the last entry. -/
def buildIndex (m : SessionManager) : SessionManager :=
  m.entries.foldl indexEntry { m with
      leafId := none
      labelsById := InsertionMap.empty
      labelTimestampsById := InsertionMap.empty
      legacyPruneChanges := InsertionMap.empty }

/-- A manager over loaded entries. -/
def load (persist : Bool) (sessionId : String) (entries : List SessionEntry) : SessionManager :=
  buildIndex ⟨persist, sessionId, entries, none, .empty, .empty, .empty⟩

def ids (m : SessionManager) : List EntryId := m.entries.map SessionEntry.id

def getEntry (m : SessionManager) (id : EntryId) : Option SessionEntry :=
  lookup SessionEntry.id m.entries id

/-- `branch`: move the leaf. -/
def branch (m : SessionManager) (id : EntryId) : SessionManager :=
  { m with leafId := some id }

/-! ## Traversal and projection -/

/-- Walk from an entry to the root, in path order. -/
def getBranch (m : SessionManager) : List SessionEntry :=
  branchPath m.entries m.leafId

/-- The changes in force on the current branch. -/
def contextChanges (m : SessionManager) : ContextChanges :=
  resolveContextChanges m.entries m.getBranch (some m.legacyPruneChanges)

def getPruneState (m : SessionManager) (id : EntryId) : Option PruneState :=
  contextChangeState (m.contextChanges.get? id)

def stripPrefix (pre s : String) : String :=
  if pre.toList.isPrefixOf s.toList then
    String.ofList (s.toList.drop pre.toList.length)
  else s

/-- The summary a change shows for the head of a summarized block. -/
def contextChangeSummary : Option ResolvedContextChange → Option String
  | some (.prune p) => if p.state = .summarized then p.summary else none
  | some (.edit (some content) (some .summary)) =>
    some (stripPrefix contextBlockSummaryPrefix (contentText content))
  | _ => none

/-- The persisted replacement summary of a summarized block's head. -/
def getPruneSummary (m : SessionManager) (id : EntryId) : Option String :=
  contextChangeSummary (m.contextChanges.get? id)

def getLabel (m : SessionManager) (id : EntryId) : Option String :=
  m.labelsById.get? id

/-- Compaction-truncated context entries, ignoring curation. -/
def buildContextEntriesAll (m : SessionManager) : List SessionEntry :=
  buildContextEntries m.entries (.ofLeaf m.leafId)

/-- Compaction-truncated context entries that are not curated away. -/
def buildContextEntries (m : SessionManager) : List SessionEntry :=
  m.buildContextEntriesAll.filter fun e =>
    match contextChangeState (m.contextChanges.get? e.id) with
    | some .excluded => false
    | some .summarized => false
    | _ => true

def buildSessionProjection (m : SessionManager) : SessionProjection :=
  Session.buildSessionProjection m.entries (.ofLeaf m.leafId) (some m.legacyPruneChanges)

/-! ## Appends -/

/-- Push an entry and advance the leaf to it. -/
def appendEntry (m : SessionManager) (e : SessionEntry) : SessionManager :=
  { m with entries := m.entries ++ [e], leafId := some e.id }

/-- The entry an append of `kind` writes under the current leaf. -/
def newEntry (m : SessionManager) (stamp : Stamp) (kind : EntryKind) : SessionEntry :=
  ⟨stamp.id, m.leafId, stamp.timestamp, kind⟩

def append (m : SessionManager) (stamp : Stamp) (kind : EntryKind) : SessionManager :=
  m.appendEntry (m.newEntry stamp kind)

def appendMessage (m : SessionManager) (stamp : Stamp)
    (message : AgentMessage) : SessionManager :=
  m.append stamp (.message message)

/-- The compaction entry written at a boundary: it keeps the prompt and
tool state in force and, with no first kept id, names itself. -/
def compactionEntry (m : SessionManager) (stamp : Stamp) (summary : String)
    (firstKeptEntryId : Option EntryId) (tokensBefore : Nat)
    (details : Option CompactionDetails) (fromHook : Bool) : CompactionEntry :=
  { summary
    firstKeptEntryId := firstKeptEntryId.getD stamp.id
    tokensBefore
    details
    fromHook
    systemMessage :=
      (getCurrentSystemMessage m.buildSessionProjection.messages).map
        fun s => { s with timestamp := stamp.timestamp } }

/-- Append a compaction summary as child of the current leaf. -/
def appendCompaction (m : SessionManager) (stamp : Stamp) (summary : String)
    (firstKeptEntryId : Option EntryId) (tokensBefore : Nat)
    (details : Option CompactionDetails) (fromHook : Bool) : SessionManager :=
  m.append stamp (.compaction (m.compactionEntry stamp summary firstKeptEntryId tokensBefore details
      fromHook))

/-! ## Curation writes -/

def getContextEditTarget (m : SessionManager) (targetId : EntryId)
    (activeBranchIds : List EntryId) : Except String SessionEntry :=
  match m.getEntry targetId with
  | none => .error s!"Entry {targetId.val} not found"
  | some target =>
    if targetId ∉ activeBranchIds then
      .error s!"Entry {targetId.val} is not on the active branch"
    else if (sessionEntryToContextMessages target).isEmpty then
      .error s!"Entry {targetId.val} does not contribute editable model content"
    else .ok target

/-- Block-content roles store a string replacement as one text block. -/
def normalizeReplacement (target : SessionEntry) :
    Option Content → Option Content
  | none => none
  | some content =>
    match target.kind with
    | .message (.assistant _) => some content.asBlocks
    | .message (.toolResult _) => some content.asBlocks
    | _ => some content

def validateContextEdit (m : SessionManager) (targetId : EntryId)
    (replacement : Option Content) (curation : Option Curation)
    (activeBranchIds : List EntryId) : Except String (Option Content) := do
  let target ← m.getContextEditTarget targetId activeBranchIds
  if target.isRawSystem && replacement.isSome && curation.isNone then
    .error s!"Entry {targetId.val} does not contribute editable model content"
  else .ok (normalizeReplacement target replacement)

/-- A requested change of one entry's presentation state. -/
structure ContextChange where
  targetId : EntryId
  state : PruneState
  summary : Option String := none

/-- The payload a requested change is written as, when it is valid. -/
def validateContextChange (m : SessionManager)
    (activeBranchIds : List EntryId) (change : ContextChange) : Except String EntryKind :=
  match change.state with
  | .included => do
    let _ ← m.getContextEditTarget change.targetId activeBranchIds
    .ok (.contextEditCancel change.targetId)
  | .excluded => do
    let replacement ← m.validateContextEdit change.targetId none none activeBranchIds
    .ok (.contextEdit change.targetId replacement none)
  | .summarized => do
    let content := match change.summary with
      | none => none
      | some s =>
        if s = "" then none
        else some (Content.text (contextBlockSummaryPrefix ++ s))
    let replacement ← m.validateContextEdit change.targetId content (some .summary) activeBranchIds
    .ok (.contextEdit change.targetId replacement (some .summary))

/-- Append one entry for each payload, each under the one before. The
stamp of an append is drawn from the state it is made in. -/
def appendAll (stamp : SessionManager → Stamp) (m : SessionManager)
    (kinds : List EntryKind) : SessionManager :=
  kinds.foldl (fun m kind => m.append (stamp m) kind) m

/-- Validate a complete curation batch before appending any marker. -/
def appendContextChanges (stamp : SessionManager → Stamp) (m : SessionManager)
    (changes : List ContextChange) : Except String SessionManager := do
  let activeBranchIds := m.getBranch.map SessionEntry.id
  let kinds ← changes.mapM (m.validateContextChange activeBranchIds)
  .ok (m.appendAll stamp kinds)

/-- An id longer than all those in use together. -/
def longerId (used : List EntryId) : EntryId where
  val := String.ofList ('x' :: List.replicate (total (fun id => id.val.toList.length) used) 'x')
  nonempty := by
    intro hc
    have := congrArg String.toList hc
    simp at this

theorem le_foldl_length (used : List EntryId) (n : Nat) :
    n ≤ used.foldl (fun sum id => sum + id.val.toList.length) n ∧ ∀ id ∈ used, id.val.toList.length
        ≤ used.foldl (fun sum id => sum + id.val.toList.length) n := by
  induction used generalizing n with
  | nil => simp
  | cons x rest ih =>
    obtain ⟨hle, hall⟩ := ih (n + x.val.toList.length)
    rw [List.foldl_cons]
    refine ⟨by omega, ?_⟩
    intro id hid
    rcases List.mem_cons.mp hid with rfl | hid
    · omega
    · exact hall id hid

theorem longerId_fresh (used : List EntryId) : longerId used ∉ used := by
  intro hc
  have hlen : (longerId used).val.toList.length
      = total (fun id => id.val.toList.length) used + 1 := by
    simp [longerId]
  have hle : (longerId used).val.toList.length ≤ total (fun id => id.val.toList.length) used :=
    (le_foldl_length used 0).2 _ hc
  omega

end SessionManager

end ReflectivePi.Session
