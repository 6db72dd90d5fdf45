import ReflectivePi.Session.Manager

/-!
# Compaction — Prepare

`prepareCompaction` over the projected entries of a branch: the cut
point with its budget walk, its recovery-suffix advance and its backward
metadata scan, the split turn, and the data a compaction is made from.

The loops run on indices, as in the source; an index out of range reads
nothing (`entries[i]?`).
-/

namespace ReflectivePi.Compaction

open Session

/-- Valid cut points are user-like and assistant messages, never tool
results, which must follow their tool call. -/
def isCutPointMessage : AgentMessage → Bool
  | .user .. => true
  | .assistant _ => true
  | .bashExecution _ => true
  | .custom _ => true
  | .branchSummary .. => true
  | .compactionSummary .. => true
  | _ => false

def isTurnStartMessage : AgentMessage → Bool
  | .user .. => true
  | .bashExecution _ => true
  | .custom _ => true
  | .branchSummary .. => true
  | .compactionSummary .. => true
  | _ => false

/-- System messages are prompt state, and the compaction entry carries
their replay; a compaction entry itself is not summarized again. -/
def getMessagesFromProjectedEntryForCompaction (entry : ProjectedSessionEntry) :
    List AgentMessage :=
  if entry.sourceEntry.isCompaction then []
  else entry.messages.filter (fun m => !m.isSystem)

/-! ## Token estimates of a projection -/

def calculateContextTokens (usage : Usage) : Nat :=
  if usage.totalTokens ≠ 0 then usage.totalTokens
  else usage.input + usage.output + usage.cacheRead + usage.cacheWrite

/-- Usage of an assistant message, unless aborted, failed or all zero. -/
def getAssistantUsage : AgentMessage → Option Usage
  | .assistant m =>
    if m.stopReason = "aborted" ∨ m.stopReason = "error" then none
    else m.usage.filter (fun u => decide (0 < calculateContextTokens u))
  | _ => none

structure ContextUsageEstimate where
  tokens : Nat
  usageTokens : Nat
  trailingTokens : Nat
  lastUsageIndex : Option Nat

/-- The last message with usage, scanning indices below the given one. -/
def lastUsageBelow (messages : List AgentMessage) : Nat → Option (Nat × Usage)
  | 0 => none
  | i + 1 =>
    match (messages[i]?).bind getAssistantUsage with
    | some usage => some (i, usage)
    | none => lastUsageBelow messages i

def sumTokens (messages : List AgentMessage) : Nat :=
  total estimateTokens messages

def estimateContextTokens (messages : List AgentMessage) : ContextUsageEstimate :=
  match lastUsageBelow messages messages.length with
  | none =>
    let estimated := sumTokens messages
    ⟨estimated, 0, estimated, none⟩
  | some (index, usage) =>
    let usageTokens := calculateContextTokens usage
    let trailing := sumTokens (messages.drop (index + 1))
    ⟨usageTokens + trailing, usageTokens, trailing, some index⟩

/-- The entry that owns the message at `index` of the projection. -/
def entryOfMessageIndex : List ProjectedSessionEntry → Nat → Option EntryId
  | [], _ => none
  | e :: rest, index =>
    if index < e.messages.length then some e.sourceEntry.id
    else entryOfMessageIndex rest (index - e.messages.length)

def isUsageInvalidating (e : SessionEntry) : Bool :=
  match e.kind with
  | .contextEdit .. => true
  | .contextEditCancel _ => true
  | .compaction _ => true
  | _ => false

/-- Later edits or compactions on the branch, and later legacy markers
anywhere in the file, invalidate a usage record taken before them. -/
def usageStillValid (projection : SessionProjection)
    (branchEntries sessionEntries : List SessionEntry) (usageId : EntryId) : Bool :=
  let usageEntryIndex := branchEntries.findIdx? (fun e => e.id = usageId)
  let lastInvalidating := (branchEntries.reverse.findIdx? isUsageInvalidating).map
      (fun i => branchEntries.length - 1 - i)
  let afterInvalidating := match usageEntryIndex, lastInvalidating with
    | some u, some i => decide (i < u)
    | some _, none => true
    | none, _ => false
  let usageFileIndex := sessionEntries.findIdx? (fun e => e.id = usageId)
  let latestLegacyChanges : InsertionMap EntryId Nat := (sessionEntries.zipIdx).foldl (fun acc p =>
      match p.1.kind with
      | .prune targetId _ _ => acc.set targetId p.2
      | _ => acc) InsertionMap.empty
  let overriddenTargets := branchEntries.filterMap fun e =>
    match e.kind with
    | .contextEdit targetId _ _ => some targetId
    | .contextEditCancel targetId => some targetId
    | _ => none
  let contextIds := projection.entries.map (fun e => e.sourceEntry.id)
  let hasLaterLegacyChange := match usageFileIndex with
    | none => false
    | some u => latestLegacyChanges.entries.any fun p =>
      decide (u < p.2) && decide (p.1 ∈ contextIds) && !decide (p.1 ∈ overriddenTargets)
  afterInvalidating && usageFileIndex.isSome && !hasLaterLegacyChange

/-- Estimate projected context without trusting usage captured before
later curation or compaction. -/
def estimateProjectedContextTokens (projection : SessionProjection)
    (branchEntries sessionEntries : List SessionEntry) : ContextUsageEstimate :=
  let estimate := estimateContextTokens projection.messages
  let usageEntryId := estimate.lastUsageIndex.bind (entryOfMessageIndex projection.entries)
  let trusted := match usageEntryId with
    | some id => usageStillValid projection branchEntries sessionEntries id
    | none => false
  if trusted then estimate
  else
    let systemTokens := ((getCurrentSystemMessage projection.messages).map
        (fun s => estimateTokens (.system s))).getD 0
    let tokens := systemTokens + sumTokens (projection.messages.filter (fun m => !m.isSystem))
    ⟨tokens, 0, tokens, none⟩

structure FileOperations where
  read : List String
  written : List String
  edited : List String
  deriving DecidableEq

/-- `Set.add`: insertion order, no repetition. -/
def addFile (file : String) (files : List String) : List String :=
  if file ∈ files then files else files ++ [file]

def FileOperations.addCall (ops : FileOperations) (call : ToolCall) : FileOperations :=
  match call.path with
  | none => ops
  | some path =>
    if path = "" then ops
    else if call.name = "read" then { ops with read := addFile path ops.read }
    else if call.name = "write" then
      { ops with written := addFile path ops.written }
    else if call.name = "edit" then
      { ops with edited := addFile path ops.edited }
    else ops

def extractFileOpsFromMessage (ops : FileOperations) (message : AgentMessage) : FileOperations :=
  (toolCalls message).foldl FileOperations.addCall ops

/-- File operations of the previous compaction's details, when it was not
written by an extension, and of the messages. -/
def extractFileOperations (messages : List AgentMessage)
    (prevCompaction : Option SessionEntry) : FileOperations :=
  let initial : FileOperations := match prevCompaction with
    | some ⟨_, _, _, .compaction ⟨_, _, _, some details, false, _⟩⟩ =>
      { read := details.readFiles.foldl (fun fs f => addFile f fs) []
        written := []
        edited := details.modifiedFiles.foldl (fun fs f => addFile f fs) [] }
    | _ => ⟨[], [], []⟩
  messages.foldl extractFileOpsFromMessage initial

/-! ## The cut point -/

structure CutPointResult where
  /-- Index of first entry to keep. -/
  firstKeptEntryIndex : Nat
  /-- Index of the message that starts the turn being split. -/
  turnStartIndex : Option Nat
  isSplitTurn : Bool

def isProjectedTurnStart (entry : ProjectedSessionEntry) : Bool :=
  !entry.sourceEntry.isCompaction && entry.messages.any isTurnStartMessage

def entryAt (entries : List ProjectedSessionEntry)
    (p : ProjectedSessionEntry → Bool) (i : Nat) : Bool :=
  (entries[i]?).elim false p

/-- The last turn start at or before `i` and not before `startIndex`. -/
def findProjectedTurnStartIndex (entries : List ProjectedSessionEntry)
    (startIndex : Nat) : Nat → Option Nat
  | 0 =>
    if startIndex = 0 && entryAt entries isProjectedTurnStart 0 then some 0
    else none
  | i + 1 =>
    if i + 1 < startIndex then none
    else if entryAt entries isProjectedTurnStart (i + 1) then some (i + 1)
    else findProjectedTurnStartIndex entries startIndex i

def isCutPointEntry (entry : ProjectedSessionEntry) : Bool :=
  !entry.sourceEntry.isCompaction && entry.messages.any isCutPointMessage

def cutPointIndices (entries : List ProjectedSessionEntry) (startIndex : Nat) : List Nat :=
  (List.range entries.length).filter
    fun i => decide (startIndex ≤ i) && entryAt entries isCutPointEntry i

def entryTokens (entries : List ProjectedSessionEntry) (i : Nat) : Nat :=
  (entries[i]?).elim 0 (fun e => sumTokens e.messages)

/-- Walk backwards from the newest entry; the index at which the
accumulated tokens reach the budget. The first argument is one past the
index being looked at. -/
def budgetIndex (entries : List ProjectedSessionEntry)
    (startIndex keepRecentTokens : Nat) : Nat → Nat → Option Nat
  | 0, _ => none
  | i + 1, accumulated =>
    if i < startIndex then none
    else if entryTokens entries i = 0 then
      budgetIndex entries startIndex keepRecentTokens i accumulated
    else if keepRecentTokens ≤ accumulated + entryTokens entries i then some i
    else budgetIndex entries startIndex keepRecentTokens i (accumulated + entryTokens entries i)

def isIntrinsicallyVisible (entry : ProjectedSessionEntry) : Bool :=
  !entry.sourceEntry.isContextEdit && !(sessionEntryToContextMessages entry.sourceEntry).isEmpty

def isOmitted (entry : ProjectedSessionEntry) : Bool :=
  isIntrinsicallyVisible entry && entry.messages.isEmpty

def isAssistantEntry (entry : SessionEntry) : Bool :=
  match entry.kind with
  | .message m => m.isAssistant
  | _ => false

/-- A replacement in the suffix of an entry that is not omitted there. -/
def isExternalReplacement (omittedIds : List EntryId)
    (entry : ProjectedSessionEntry) : Bool :=
  match entry.sourceEntry.kind with
  | .contextEdit targetId (some _) _ => !decide (targetId ∈ omittedIds)
  | _ => false

/-- A closed suffix that holds an omitted assistant attempt and nothing a
model could still see. -/
def isRecoveryOmissionSuffix (suffix : List ProjectedSessionEntry) : Bool :=
  let omittedSuffixIds := (suffix.filter isOmitted).map (fun e => e.sourceEntry.id)
  !(suffix.any (isExternalReplacement omittedSuffixIds))
    && suffix.any (fun e => isAssistantEntry e.sourceEntry && isOmitted e)
    && suffix.all (fun e => !e.sourceEntry.isCompaction
        && (!isIntrinsicallyVisible e || isOmitted e))

/-- Scan backwards over entries that contribute nothing, down to the
start or the compaction. -/
def scanBack (entries : List ProjectedSessionEntry) (startIndex : Nat) :
    Nat → Nat
  | 0 => 0
  | i + 1 =>
    if i + 1 ≤ startIndex then i + 1
    else if entryAt entries (fun e => e.sourceEntry.isCompaction || !e.messages.isEmpty) i then
      i + 1
    else scanBack entries startIndex i

/-- The cut before the scans: the first cut point at or after the entry
that exceeds the budget, else the last one; the first one when nothing
exceeds it. -/
def budgetCut (cutPoints : List Nat) (exceededAt : Option Nat) (first : Nat) : Nat :=
  match exceededAt with
  | none => first
  | some i =>
    (cutPoints.find? (fun c => decide (i ≤ c))).getD (cutPoints.getLast?.getD first)

/-- The cut before the scan over metadata: the budget's, one further over
a recovery suffix. -/
def advancedCut (entries : List ProjectedSessionEntry)
    (startIndex keepRecentTokens : Nat) (cutPoints : List Nat) (first : Nat) : Nat :=
  let exceededAt := budgetIndex entries startIndex keepRecentTokens entries.length 0
  let cutIndex := budgetCut cutPoints exceededAt first
  if exceededAt.isSome && isRecoveryOmissionSuffix (entries.drop (cutIndex + 1)) then
    cutIndex + 1
  else cutIndex

def findProjectedCutPoint (entries : List ProjectedSessionEntry)
    (startIndex keepRecentTokens : Nat) : CutPointResult :=
  let cutPoints := cutPointIndices entries startIndex
  match cutPoints with
  | [] => ⟨startIndex, none, false⟩
  | first :: _ =>
    let cutIndex := scanBack entries startIndex
      (advancedCut entries startIndex keepRecentTokens cutPoints first)
    let startsTurn := entryAt entries isProjectedTurnStart cutIndex
    let turnStartIndex := if startsTurn then none
      else findProjectedTurnStartIndex entries startIndex cutIndex
    ⟨cutIndex, turnStartIndex, !startsTurn && turnStartIndex.isSome⟩

/-! ## The preparation -/

structure CompactionSettings where
  enabled : Bool
  reserveTokens : Nat
  keepRecentTokens : Nat
  deriving DecidableEq

structure CompactionPreparation where
  firstKeptEntryId : EntryId
  /-- Messages that will be summarized and discarded. -/
  messagesToSummarize : List AgentMessage
  /-- Messages that become the turn prefix summary, when splitting. -/
  turnPrefixMessages : List AgentMessage
  isSplitTurn : Bool
  tokensBefore : Nat
  previousSummary : Option String
  fileOps : FileOperations
  settings : CompactionSettings
  deriving DecidableEq

/-- `Array.prototype.slice` with `i ≤ j`. -/
def slice {α : Type} (l : List α) (i j : Nat) : List α := (l.take j).drop i

def conversation (entries : List ProjectedSessionEntry) : List AgentMessage :=
  entries.flatMap getMessagesFromProjectedEntryForCompaction

def isPreviousCompaction (entry : ProjectedSessionEntry) : Bool :=
  entry.sourceEntry.isCompaction && !entry.messages.isEmpty

def summaryText : AgentMessage → Option String
  | .compactionSummary summary _ _ => some summary
  | .custom m =>
    if m.customType = "context_summary" then some (contentText m.content)
    else none
  | _ => none

def endsInCompaction (pathEntries : List SessionEntry) : Bool :=
  (pathEntries.getLast?).elim false SessionEntry.isCompaction

/-- Where the history to summarize ends: at the turn being split, else at
the cut. -/
def CutPointResult.historyEnd (cut : CutPointResult) : Nat :=
  if cut.isSplitTurn then cut.turnStartIndex.getD cut.firstKeptEntryIndex
  else cut.firstKeptEntryIndex

def turnPrefix (entries : List ProjectedSessionEntry) (cut : CutPointResult) : List AgentMessage :=
  if cut.isSplitTurn then
    conversation (slice entries cut.historyEnd cut.firstKeptEntryIndex)
  else []

/-- One past the previous compaction, when its summary is still shown. -/
def boundaryStart (entries : List ProjectedSessionEntry) : Nat :=
  (entries.findIdx? isPreviousCompaction).elim 0 (· + 1)

def prepareCompaction (pathEntries : List SessionEntry) (settings : CompactionSettings)
    (legacyPruneChanges : Option (InsertionMap EntryId PruneEntry))
    (sessionEntries : List SessionEntry) : Option CompactionPreparation :=
  if endsInCompaction pathEntries then none
  else
    let projection :=
      buildSessionProjection pathEntries .undefined legacyPruneChanges
    let projectedEntries := projection.entries
    let prevCompactionIndex := projectedEntries.findIdx? isPreviousCompaction
    let prevCompaction := prevCompactionIndex.bind (projectedEntries[·]?)
    let previousSummary :=
      prevCompaction.bind (fun e => e.messages.findSome? summaryText)
    let boundaryStart := boundaryStart projectedEntries
    let tokensBefore :=
      (estimateProjectedContextTokens projection pathEntries
        sessionEntries).tokens
    let cutPoint := findProjectedCutPoint projectedEntries boundaryStart
      settings.keepRecentTokens
    match projectedEntries[cutPoint.firstKeptEntryIndex]? with
    | none => none
    | some firstKept =>
      let messagesToSummarize := conversation
        (slice projectedEntries boundaryStart cutPoint.historyEnd)
      let turnPrefixMessages := turnPrefix projectedEntries cutPoint
      if messagesToSummarize.isEmpty && turnPrefixMessages.isEmpty then none
      else some
        { firstKeptEntryId := firstKept.sourceEntry.id
          messagesToSummarize
          turnPrefixMessages
          isSplitTurn := cutPoint.isSplitTurn
          tokensBefore
          previousSummary
          fileOps := turnPrefixMessages.foldl extractFileOpsFromMessage
            (extractFileOperations messagesToSummarize
              (prevCompaction.map ProjectedSessionEntry.sourceEntry))
          settings }

/-- The call every caller makes: the current branch, the legacy index and
the whole file. -/
def prepare (m : SessionManager) (settings : CompactionSettings) : Option CompactionPreparation :=
  prepareCompaction m.getBranch settings (some m.legacyPruneChanges) m.entries

end ReflectivePi.Compaction
