import ReflectivePi.Curation.Blocks

/-!
# Curation — Tools

The context tools of an agent session: the inventory of selectable blocks
with its protected recent suffix, the selection of requested ids, and the
writes `prune_context`, `summarize_context` and the `/prune` selector make.

The flags a write leaves for the status line and the texts the tools
return are left out; the lists the texts are made from are here.
-/

namespace ReflectivePi.Curation

open Session ParentWalk

def maxProtectedRecentBlocks : Nat := 8

def maxProtectedRecentTokens : Nat := 8192

/-- `block.messages ?? block.entries.flatMap(sessionEntryToContextMessages)`. -/
def blockMessages (b : PruneBlock) : List AgentMessage :=
  b.messages.getD (b.entries.flatMap sessionEntryToContextMessages)

/-- The loop over the blocks, newest first. -/
def protectFrom : Nat → Nat → List PruneBlock → List EntryId
  | _, _, [] => []
  | protectedBlocks, protectedTokens, b :: rest =>
    let blocks := protectedBlocks + 1
    let tokens := protectedTokens + total estimateTokens (blockMessages b)
    b.id :: if maxProtectedRecentBlocks ≤ blocks ∨ maxProtectedRecentTokens ≤ tokens
      then [] else protectFrom blocks tokens rest

/-- The ids of the recent visible suffix, keeping complete blocks. -/
def getProtectedRecentBlockIds (blocks : List PruneBlock) : List EntryId :=
  protectFrom 0 0 blocks.reverse

/-! ## The inventory -/

structure ContextBlockInventory where
  blocks : List PruneBlock
  protectedIds : List EntryId

/-- `messagesById.get(id) ?? []`. -/
def messagesOf (projection : SessionProjection) (id : EntryId) : List AgentMessage :=
  ((lookup (fun p => p.sourceEntry.id) projection.entries id).map
    ProjectedSessionEntry.messages).getD []

/-- A message entry with its projected message in place of the raw one. -/
def withProjectedMessage (projection : SessionProjection) (e : SessionEntry) : SessionEntry :=
  match e.kind, (messagesOf projection e.id).head? with
  | .message _, some message => { e with kind := .message message }
  | _, _ => e

/-- A block of visible entries with what it contributes. -/
def contributedBlock (projection : SessionProjection) (b : PruneBlock) :
    PruneBlock where
  head := withProjectedMessage projection b.head
  tail := b.tail.map (withProjectedMessage projection)
  messages := some (b.entryIds.flatMap (messagesOf projection))

/-- The entries the model sees something of. -/
def visibleEntries (projection : SessionProjection) : List SessionEntry :=
  (projection.entries.filter (fun p => !p.messages.isEmpty)).map ProjectedSessionEntry.sourceEntry

/-- Selectable blocks of visible entries; previously curated blocks are
not selectable, but count in the protected suffix. -/
def getContextBlockInventory (m : SessionManager) : ContextBlockInventory :=
  let projection := m.buildSessionProjection
  let visibleBlocks := (groupPruneBlocks (visibleEntries projection)).map
    (contributedBlock projection)
  let allProtectedIds := getProtectedRecentBlockIds visibleBlocks
  let selectableIds := m.buildContextEntries.map SessionEntry.id
  let blocks := visibleBlocks.filter (fun b => decide (b.id ∈ selectableIds))
  { blocks
    protectedIds := (blocks.filter
      (fun b => decide (b.id ∈ allProtectedIds))).map PruneBlock.id }

/-! ## The selection -/

structure ContextBlockSelection where
  blocks : List PruneBlock
  protectedIds : List EntryId
  eligible : List PruneBlock
  protectedBlocks : List PruneBlock
  staleBlocks : List PruneBlock
  unknown : List String

/-- White space and line terminators. -/
def isWhiteSpace (c : Char) : Bool :=
  let n := c.toNat
  (9 ≤ n && n ≤ 13) || n = 0x20 || n = 0xA0 || n = 0x1680
    || (0x2000 ≤ n && n ≤ 0x200A) || n = 0x2028 || n = 0x2029 || n = 0x202F
    || n = 0x205F || n = 0x3000 || n = 0xFEFF

/-- `String.prototype.trim`. -/
def trim (s : String) : String :=
  String.ofList ((s.toList.dropWhile isWhiteSpace).reverse.dropWhile isWhiteSpace).reverse

/-- `blockById.get(id)`, over a map in which a later block wins. -/
def blockById (blocks : List PruneBlock) (id : String) : Option PruneBlock :=
  lookup (fun b => b.id.val) blocks id

/-- The variables of the selection loop. -/
structure SelectState where
  eligible : List PruneBlock
  protectedBlocks : List PruneBlock
  unknown : List String
  seen : List String

def SelectState.step (inventory : ContextBlockInventory) (s : SelectState)
    (rawId : String) : SelectState :=
  let id := trim rawId
  if id = "" ∨ id ∈ s.seen then s
  else
    let s := { s with seen := s.seen ++ [id] }
    match blockById inventory.blocks id with
    | none => { s with unknown := s.unknown ++ [id] }
    | some b =>
      if b.id ∈ inventory.protectedIds then
        { s with protectedBlocks := s.protectedBlocks ++ [b] }
      else { s with eligible := s.eligible ++ [b] }

def noMatchError (unknown : List String) : String :=
  "Error: No current context blocks matched." ++ (if unknown.isEmpty then ""
        else " Unknown id(s): " ++ ", ".intercalate unknown ++ ".")
    ++ " Call list_context with no parameters to list the current blocks."

/-- Select current blocks once, keeping protection hits separate from
argument errors. -/
def selectContextBlocks (m : SessionManager) (ids : List String) :
    Except String ContextBlockSelection :=
  let inventory := getContextBlockInventory m
  let s := ids.foldl (SelectState.step inventory) ⟨[], [], [], []⟩
  if s.eligible.isEmpty && s.protectedBlocks.isEmpty then
    .error (noMatchError s.unknown)
  else .ok
    { blocks := inventory.blocks
      protectedIds := inventory.protectedIds
      eligible := s.eligible
      protectedBlocks := s.protectedBlocks
      staleBlocks := []
      unknown := s.unknown }

/-! ## The writes -/

section

variable (stamp : SessionManager → Stamp)

/-- Set the presentation state of one or more entries. -/
def setPruneState (m : SessionManager) (entryIds : List EntryId)
    (state : PruneState) : Except String SessionManager :=
  if entryIds.isEmpty then .ok m
  else m.appendContextChanges stamp (entryIds.map fun targetId => { targetId, state })

/-- Replace one atomic context block with a persisted summary: its first
entry carries the text. -/
def setBlockSummary (m : SessionManager) (entryIds : List EntryId)
    (summary : String) : Except String SessionManager :=
  if entryIds.isEmpty then .ok m
  else m.appendContextChanges stamp
    (entryIds.mapIdx fun index targetId =>
      { targetId, state := .summarized
        summary := if index = 0 then some summary else none })

def pruneIdsError : String :=
  "Error: prune_context requires \x7b\"ids\": [\"id1\", \"id2\"]\x7d with at least one block id. Call list_context with no parameters to list the current blocks."

def summarizeIdsError : String :=
  "Error: summarize_context requires \x7b\"ids\": [\"id1\", \"id2\"]\x7d with at least one block id. First call list_context with no parameters to list the current blocks."

/-- `prune_context`: exclude the eligible blocks among the requested. -/
def pruneContext (m : SessionManager) (ids : List String) : Except String SessionManager :=
  if ids.isEmpty then .error pruneIdsError
  else do
    let selection ← selectContextBlocks m ids
    selection.eligible.foldlM (fun m b => setPruneState stamp m b.entryIds .excluded) m

/-- `summarize_context` when every summary request is answered and nothing
else happens meanwhile. -/
def summarizeContext (m : SessionManager) (ids : List String)
    (summary : EntryId → String) : Except String SessionManager :=
  if ids.isEmpty then .error summarizeIdsError
  else do
    let selection ← selectContextBlocks m ids
    selection.eligible.foldlM (fun m b => setBlockSummary stamp m b.entryIds (summary b.id)) m

end

end ReflectivePi.Curation
