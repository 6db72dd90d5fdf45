import ReflectivePi.Session.Message

/-!
# Session — Entry

The append-only entries of a session file. An entry is its tree links
(`id`, `parentId`), its timestamp and one payload.

Ids are non-empty strings: `generateId` produces eight hex digits, and
the walks of the session manager treat an empty id as no id at all.
-/

namespace ReflectivePi.Session

structure EntryId where
  val : String
  nonempty : val ≠ ""
  deriving DecidableEq

/-- An id with a readable name. -/
def EntryId.lit (name : String) : EntryId where
  val := "id-" ++ name
  nonempty := by
    intro hc
    have := congrArg String.toList hc
    simp at this

/-- Presentation state for curation tools and the selector. -/
inductive PruneState where
  | included
  | excluded
  | summarized
  deriving DecidableEq

/-- Fork metadata of a context edit: it marks a summarized block. -/
inductive Curation where
  | summary
  deriving DecidableEq

/-- Details stored in a compaction entry for file tracking. -/
structure CompactionDetails where
  readFiles : List String
  modifiedFiles : List String
  deriving DecidableEq

structure CompactionEntry where
  summary : String
  firstKeptEntryId : EntryId
  tokensBefore : Nat
  details : Option CompactionDetails
  fromHook : Bool
  /-- Complete prompt and tool state at this compaction boundary. -/
  systemMessage : Option SystemMessage
  deriving DecidableEq

/-- What an entry carries, by its `type`. -/
inductive EntryKind where
  | message (message : AgentMessage)
  | thinkingLevelChange (thinkingLevel : String)
  | modelChange (provider modelId : String)
  | usage (kind provider model : String)
  | compaction (compaction : CompactionEntry)
  | branchSummary (fromId summary : String)
  | custom (customType : String)
  | customMessage (customType : String) (content : Option Content)
      (display : Bool) (details : Option String)
  | contextEdit (targetId : EntryId) (replacement : Option Content) (curation : Option Curation)
  | contextEditCancel (targetId : EntryId)
  | label (targetId : EntryId) (label : Option String)
  | prune (targetId : EntryId) (state : PruneState) (summary : Option String)
  | sessionInfo (name : Option String)
  deriving DecidableEq

structure SessionEntry where
  id : EntryId
  parentId : Option EntryId
  timestamp : Nat
  kind : EntryKind
  deriving DecidableEq

namespace SessionEntry

/-- A user message entry. -/
def userText (id : EntryId) (parentId : Option EntryId) (text : String) : SessionEntry :=
  ⟨id, parentId, 1, .message (.user (some (.text text)) 1)⟩

def isCompaction (e : SessionEntry) : Bool :=
  match e.kind with
  | .compaction _ => true
  | _ => false

/-- A message entry whose RAW message is a system message. -/
def isRawSystem (e : SessionEntry) : Bool :=
  match e.kind with
  | .message m => m.isSystem
  | _ => false

def isContextEdit (e : SessionEntry) : Bool :=
  match e.kind with
  | .contextEdit .. => true
  | _ => false

def isLabelOrPrune (e : SessionEntry) : Bool :=
  match e.kind with
  | .label .. => true
  | .prune .. => true
  | _ => false

end SessionEntry

/-- A legacy prune marker, as the manager's index keeps it. -/
structure PruneEntry where
  id : EntryId
  parentId : Option EntryId
  timestamp : Nat
  targetId : EntryId
  state : PruneState
  summary : Option String

def PruneEntry.toEntry (p : PruneEntry) : SessionEntry where
  id := p.id
  parentId := p.parentId
  timestamp := p.timestamp
  kind := .prune p.targetId p.state p.summary

def SessionEntry.toPrune? (e : SessionEntry) : Option PruneEntry :=
  match e.kind with
  | .prune targetId state summary =>
    some ⟨e.id, e.parentId, e.timestamp, targetId, state, summary⟩
  | _ => none

/-! ## Raw context messages -/

def createCustomMessage (customType : String) (content : Content)
    (display : Bool) (details : Option String) (timestamp : Nat) : AgentMessage :=
  .custom ⟨customType, content, display, details, timestamp⟩

/-- Null content, which unvalidated session files can hold, becomes the
empty content of the role. -/
def normalizeContent : AgentMessage → AgentMessage
  | .system m => .system { m with content := some (m.content.getD (.text "")) }
  | .user content timestamp =>
    .user (some (content.getD (.blocks []))) timestamp
  | .assistant m =>
    .assistant { m with content := some (m.content.getD (.blocks [])) }
  | .toolResult m =>
    .toolResult { m with content := some (m.content.getD (.blocks [])) }
  | m => m

/-- Project one session entry into runtime messages. Plain custom entries
are state and do not participate in context. -/
def sessionEntryToContextMessages (entry : SessionEntry) : List AgentMessage :=
  match entry.kind with
  | .message m => [normalizeContent m]
  | .customMessage customType content display details =>
    [createCustomMessage customType (content.getD (.blocks [])) display details entry.timestamp]
  | .branchSummary fromId summary =>
    if summary = "" then []
    else [.branchSummary summary fromId entry.timestamp]
  | .compaction c =>
    let summary : AgentMessage :=
      .compactionSummary c.summary c.tokensBefore entry.timestamp
    match c.systemMessage with
    | some m => [.system m, summary]
    | none => [summary]
  | _ => []

@[simp] theorem isSystem_normalizeContent (m : AgentMessage) :
    (normalizeContent m).isSystem = m.isSystem := by
  cases m <;> rfl

@[simp] theorem isToolResult_normalizeContent (m : AgentMessage) :
    (normalizeContent m).isToolResult = m.isToolResult := by
  cases m <;> rfl

theorem contextMessages_length_le {entry : SessionEntry} (h : entry.isCompaction = false) :
    (sessionEntryToContextMessages entry).length ≤ 1 := by
  unfold sessionEntryToContextMessages
  cases hk : entry.kind with
  | compaction c => simp [SessionEntry.isCompaction, hk] at h
  | branchSummary fromId summary =>
    by_cases hs : summary = "" <;> simp [hs]
  | _ => simp

end ReflectivePi.Session
