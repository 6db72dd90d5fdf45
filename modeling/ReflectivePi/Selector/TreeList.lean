import Mathlib.Data.List.Infix
import ReflectivePi.Selector.SessionTree
import ReflectivePi.Tui.Editor.Text

/-!
# Selector — the tree list

The list of the session tree's entries that the tree selector shows, with its
filter, search, folds and selection. The visible entries are kept by id, the
selection is an index into them. A function whose loop may not end returns an
option. `toLowerCase` is the one of the language.
-/

namespace ReflectivePi.Selector

open Session (SessionEntry EntryId EntryKind AgentMessage Content ContentBlock PruneState)
open Tui (Text unit isSpaceUnit slice)
open Ancestors (firstVisible parentOf hiddenBy)

/-! ## Texts of entries -/

/-- A text as its UTF-16 code units. -/
def utf16 (text : String) : Text :=
  text.toList.flatMap fun c =>
    if c.toNat < 0x10000 then [unit c]
    else [(0xd800 + (c.toNat - 0x10000) / 0x400).toUInt16,
      (0xdc00 + (c.toNat - 0x10000) % 0x400).toUInt16]

def extractFullContent : Content → Text
  | .text text => utf16 text
  | .blocks blocks => blocks.flatMap fun
      | .text text => utf16 text
      | _ => []

def extractContent (content : Content) : Text := slice (extractFullContent content) 0 200

def hasTextContent : Option Content → Bool
  | none => false
  | some (.text text) => Tui.trim (utf16 text) != []
  | some (.blocks blocks) => blocks.any fun
      | .text text => Tui.trim (utf16 text) != []
      | _ => false

def messageRole : AgentMessage → String
  | .user .. => "user"
  | .assistant _ => "assistant"
  | .toolResult _ => "toolResult"
  | .system _ => "system"
  | .custom _ => "custom"
  | .bashExecution _ => "bashExecution"
  | .branchSummary .. => "branchSummary"
  | .compactionSummary .. => "compactionSummary"
  | .contextStatus .. => "contextStatus"
  | .other role => role

/-- `message.content`, where the message has one. -/
def messageContent : AgentMessage → Option Content
  | .user content _ => content
  | .assistant m => m.content
  | .toolResult m => m.content
  | .system m => m.content
  | .custom m => some m.content
  | .contextStatus content _ => some (.text content)
  | _ => none

def pruneStateText : PruneState → String
  | .included => "included"
  | .excluded => "excluded"
  | .summarized => "summarized"

/-- A text that is pushed unless it is empty. -/
def pushed (text : Text) : List Text := if text = [] then [] else [text]

def messageParts (message : AgentMessage) : List Text :=
  let content := match messageContent message with
    | none => []
    | some content => if content = .text "" then [] else [extractContent content]
  let command := match message with
    | .bashExecution m => pushed (utf16 m.command)
    | _ => []
  utf16 (messageRole message) :: content ++ command

def kindParts : EntryKind → List Text
  | .message message => messageParts message
  | .customMessage customType content _ _ =>
    [utf16 customType, match content with
      | none => []
      | some (.text text) => utf16 text
      | some content => extractContent content]
  | .compaction _ => [utf16 "compaction"]
  | .branchSummary _ summary => [utf16 "branch summary", utf16 summary]
  | .sessionInfo name => utf16 "title" :: pushed (utf16 (name.getD ""))
  | .modelChange _ modelId => [utf16 "model", utf16 modelId]
  | .thinkingLevelChange level => [utf16 "thinking", utf16 level]
  | .custom customType => [utf16 "custom", utf16 customType]
  | .contextEdit targetId replacement _ =>
    [utf16 "context edit", utf16 (if replacement.isNone then "omit" else "replace"),
      utf16 targetId.val]
  | .contextEditCancel targetId => [utf16 "context restore", utf16 targetId.val]
  | .label _ label => [utf16 "label", utf16 (label.getD "")]
  | .prune _ state summary =>
    [utf16 "prune", utf16 (pruneStateText state)] ++ pushed (utf16 (summary.getD ""))
  | .usage .. => []

def getSearchableText (node : FlatNode) : Text :=
  [unit ' '].intercalate (pushed (utf16 (node.label.getD "")) ++ kindParts node.entry.kind)

/-! ## The filter -/

inductive FilterMode where
  | default
  | noTools
  | userOnly
  | labeledOnly
  | all
  deriving DecidableEq

def isSettingsEntry : EntryKind → Bool
  | .label .. => true
  | .contextEdit .. => true
  | .contextEditCancel _ => true
  | .custom _ => true
  | .modelChange .. => true
  | .thinkingLevelChange _ => true
  | .sessionInfo _ => true
  | _ => false

def isUserMessage : EntryKind → Bool
  | .message (.user ..) => true
  | _ => false

def isToolResultMessage : EntryKind → Bool
  | .message (.toolResult _) => true
  | _ => false

/-- An assistant message that holds only tool calls and did not fail. -/
def isSilentAssistant : EntryKind → Bool
  | .message (.assistant m) =>
    !hasTextContent m.content
      && (m.stopReason == "" || m.stopReason == "stop" || m.stopReason == "toolUse")
  | _ => false

def isUsage : EntryKind → Bool
  | .usage .. => true
  | _ => false

def passesMode (mode : FilterMode) (node : FlatNode) : Bool :=
  match mode with
  | .userOnly => isUserMessage node.entry.kind
  | .noTools => !isSettingsEntry node.entry.kind && !isToolResultMessage node.entry.kind
  | .labeledOnly => node.label.isSome
  | .all => true
  | .default => !isSettingsEntry node.entry.kind

section Search

variable (toLowerCase : Text → Text)

/-- `toLowerCase().split(/\s+/).filter(Boolean)`. -/
def searchTokens (searchQuery : Text) : List Text :=
  ((toLowerCase searchQuery).splitOnP isSpaceUnit).filter (· ≠ [])

/-- The entry passes the filter and the search. -/
def passes (currentLeafId : Option EntryId) (mode : FilterMode) (searchQuery : Text)
    (node : FlatNode) : Bool :=
  !isUsage node.entry.kind
    && (currentLeafId == some node.entry.id || !isSilentAssistant node.entry.kind)
    && passesMode mode node
    && (searchTokens toLowerCase searchQuery).all fun token =>
      decide (token <:+: toLowerCase (getSearchableText node))

/-! ## The list -/

/-- What a re-filtering was given and what it came to. -/
structure Refiltering where
  flatNodes : List FlatNode
  currentLeafId : Option EntryId
  filterMode : FilterMode
  searchQuery : Text
  foldedNodes : List EntryId
  before : Option EntryId
  filteredNodes : List EntryId
  after : Option EntryId

structure TreeList where
  flatNodes : List FlatNode
  filteredNodes : List EntryId := []
  selectedIndex : Int := 0
  currentLeafId : Option EntryId
  maxVisibleLines : Nat
  filterMode : FilterMode
  searchQuery : Text := []
  showLabelTimestamps : Bool := false
  /-- `visibleParentMap`; `visibleChildrenMap` is read off it. -/
  visibleParents : List (EntryId × Option EntryId) := []
  lastSelectedId : Option EntryId := none
  foldedNodes : List EntryId := []
  /-- The re-filterings so far. -/
  refilterings : List Refiltering := []

/-- `ids[index]`. -/
def idAt (ids : List EntryId) (index : Int) : Option EntryId :=
  if index < 0 then none else ids[index.toNat]?

def indexById (ids : List EntryId) (id : EntryId) : Option Int :=
  if id ∈ ids then some (ids.idxOf id) else none

/-- A walk up the tree meets each node once, an unknown parent and the end. -/
def walkFuel (nodes : List FlatNode) : Nat := (links nodes).length + 3

/-- `none` if the walk never ends. -/
def findNearestVisibleIndex (nodes : List FlatNode) (ids : List EntryId)
    (entryId : Option EntryId) : Option Int :=
  if ids = [] then some 0
  else match firstVisible (links nodes) ids (walkFuel nodes) entryId with
    | none => none
    | some none => some (ids.length - 1)
    | some (some id) => some (ids.idxOf id)

/-- The visible entries, each with its nearest visible ancestor. -/
def visibleStructure (nodes : List FlatNode) (ids : List EntryId) :
    Option (List (EntryId × Option EntryId)) :=
  ids.mapM fun id =>
    (firstVisible (links nodes) ids (walkFuel nodes) (parentOf (links nodes) id)).map
      fun ancestor => (id, ancestor)

namespace TreeList

def selectedId (l : TreeList) : Option EntryId := idAt l.filteredNodes l.selectedIndex

/-- The ids that pass the filter and the search and are not folded away. -/
def shownIds (l : TreeList) : List EntryId :=
  let shown := (l.flatNodes.filter
    (passes toLowerCase l.currentLeafId l.filterMode l.searchQuery)).map FlatNode.id
  if l.foldedNodes = [] then shown
  else shown.filter (· ∉ hiddenBy l.foldedNodes (links l.flatNodes))

def recalculateVisualStructure (l : TreeList) (ids : List EntryId) :
    Option (List (EntryId × Option EntryId)) :=
  if ids = [] then some l.visibleParents else visibleStructure l.flatNodes ids

/-- Where the selection goes in the new list. -/
def restoredIndex (l : TreeList) (ids : List EntryId) (lastSelectedId : Option EntryId) :
    Option Int :=
  match lastSelectedId with
  | some id => findNearestVisibleIndex l.flatNodes ids (some id)
  | none =>
    if l.selectedIndex ≥ ids.length then some (max 0 (ids.length - 1))
    else some l.selectedIndex

/-- The remembered selection, from the list and the index that are shown. -/
def remembered (ids : List EntryId) (index : Int) (lastSelectedId : Option EntryId) :
    Option EntryId :=
  if ids = [] then lastSelectedId else (idAt ids index).or lastSelectedId

/-- The list after a re-filtering that came to the ids, their structure, the
index and, before the new selection, the remembered entry. -/
def refiltered (l : TreeList) (filteredNodes : List EntryId)
    (visibleParents : List (EntryId × Option EntryId)) (selectedIndex : Int)
    (lastSelectedId : Option EntryId) : TreeList :=
  { l with
    filteredNodes, visibleParents, selectedIndex
    lastSelectedId := remembered filteredNodes selectedIndex lastSelectedId
    refilterings := l.refilterings ++ [{
      flatNodes := l.flatNodes
      currentLeafId := l.currentLeafId
      filterMode := l.filterMode
      searchQuery := l.searchQuery
      foldedNodes := l.foldedNodes
      before := l.selectedId
      filteredNodes
      after := idAt filteredNodes selectedIndex }] }

def applyFilter (l : TreeList) : Option TreeList := do
  let lastSelectedId := remembered l.filteredNodes l.selectedIndex l.lastSelectedId
  let filteredNodes := l.shownIds toLowerCase
  let visibleParents ← l.recalculateVisualStructure filteredNodes
  let selectedIndex ← l.restoredIndex filteredNodes lastSelectedId
  return l.refiltered filteredNodes visibleParents selectedIndex lastSelectedId

/-- The constructor. -/
def create (tree : List SessionTreeNode) (currentLeafId : Option EntryId)
    (maxVisibleLines : Nat) (initialSelectedId : Option EntryId)
    (initialFilterMode : Option FilterMode) : Option TreeList := do
  let l : TreeList := {
    flatNodes := flattenTree currentLeafId tree
    currentLeafId, maxVisibleLines
    filterMode := initialFilterMode.getD .default }
  let l ← l.applyFilter toLowerCase
  let selectedIndex ← findNearestVisibleIndex l.flatNodes l.filteredNodes
    (initialSelectedId.or currentLeafId)
  return { l with selectedIndex, lastSelectedId := idAt l.filteredNodes selectedIndex }

/-! ## Moves -/

def visibleParent (l : TreeList) (id : EntryId) : Option EntryId :=
  (l.visibleParents.lookup id).join

def visibleChildren (l : TreeList) (id : EntryId) : List EntryId :=
  (l.visibleParents.filter (·.2 = some id)).map Prod.fst

/-- It has visible children, and is a root or starts a branch segment. -/
def isFoldable (l : TreeList) (id : EntryId) : Bool :=
  !(l.visibleChildren id).isEmpty && match l.visibleParent id with
    | none => true
    | some parent => decide ((l.visibleChildren parent).length > 1)

/-- `findBranchSegmentStart("down")`. -/
def segmentDown (l : TreeList) : Nat → EntryId → Option Int
  | 0, _ => none
  | fuel + 1, current => match l.visibleChildren current with
    | [] => indexById l.filteredNodes current
    | [child] => l.segmentDown fuel child
    | child :: _ :: _ => indexById l.filteredNodes child

/-- `findBranchSegmentStart("up")`. -/
def segmentUp (l : TreeList) : Nat → EntryId → Option Int
  | 0, _ => none
  | fuel + 1, current => match l.visibleParent current with
    | none => indexById l.filteredNodes current
    | some parent =>
      if (l.visibleChildren parent).length > 1
          ∧ (indexById l.filteredNodes current).any (· < l.selectedIndex) then
        indexById l.filteredNodes current
      else l.segmentUp fuel parent

def select (l : TreeList) (selectedIndex : Int) : TreeList := { l with selectedIndex }

/-- The selection goes where the selected entry leads, if one is selected. -/
def jump (l : TreeList) (target : EntryId → Option Int) : Option TreeList :=
  match l.selectedId with
  | none => some l
  | some id => (target id).map l.select

def branchUp (l : TreeList) : Option TreeList := l.jump (l.segmentUp (walkFuel l.flatNodes))

def branchDown (l : TreeList) : Option TreeList := l.jump (l.segmentDown (walkFuel l.flatNodes))

def up (l : TreeList) : TreeList :=
  l.select (if l.selectedIndex = 0 then l.filteredNodes.length - 1 else l.selectedIndex - 1)

def down (l : TreeList) : TreeList :=
  l.select (if l.selectedIndex = l.filteredNodes.length - 1 then 0 else l.selectedIndex + 1)

def pageUp (l : TreeList) : TreeList := l.select (max 0 (l.selectedIndex - l.maxVisibleLines))

def pageDown (l : TreeList) : TreeList :=
  l.select (min (l.filteredNodes.length - 1) (l.selectedIndex + l.maxVisibleLines))

def foldOrUp (l : TreeList) : Option TreeList :=
  match l.selectedId with
  | none => l.branchUp
  | some id =>
    if l.isFoldable id ∧ id ∉ l.foldedNodes then
      applyFilter toLowerCase { l with foldedNodes := l.foldedNodes ++ [id] }
    else l.branchUp

def unfoldOrDown (l : TreeList) : Option TreeList :=
  match l.selectedId with
  | none => l.branchDown
  | some id =>
    if id ∈ l.foldedNodes then
      applyFilter toLowerCase { l with foldedNodes := l.foldedNodes.filter (· ≠ id) }
    else l.branchDown

/-! ## Filter and search edits -/

def setFilter (l : TreeList) (filterMode : FilterMode) : Option TreeList :=
  applyFilter toLowerCase { l with filterMode, foldedNodes := [] }

def toggleFilter (l : TreeList) (filterMode : FilterMode) : Option TreeList :=
  l.setFilter toLowerCase (if l.filterMode = filterMode then .default else filterMode)

def setSearch (l : TreeList) (searchQuery : Text) : Option TreeList :=
  applyFilter toLowerCase { l with searchQuery, foldedNodes := [] }

end TreeList

def FilterMode.next : FilterMode → FilterMode
  | .default => .noTools
  | .noTools => .userOnly
  | .userOnly => .labeledOnly
  | .labeledOnly => .all
  | .all => .default

def FilterMode.previous : FilterMode → FilterMode
  | .default => .all
  | .noTools => .default
  | .userOnly => .noTools
  | .labeledOnly => .userOnly
  | .all => .labeledOnly

/-- A key, by the first binding it matches; `text` is one that matches none. -/
inductive TreeKey where
  | up
  | down
  | foldOrUp
  | unfoldOrDown
  | pageUp
  | pageDown
  | confirm
  | copy
  | cancel
  | filterDefault
  | filterNoTools
  | filterUserOnly
  | filterLabeledOnly
  | filterAll
  | cycleBackward
  | cycleForward
  | deleteCharBackward
  | editLabel
  | toggleLabelTimestamp
  | text (keyData : Text)

def isControlUnit (c : Tui.CodeUnit) : Bool := c < 32 || c == 0x7f || (0x80 ≤ c && c ≤ 0x9f)

namespace TreeList

def handleInput (l : TreeList) : TreeKey → Option TreeList
  | .up => some l.up
  | .down => some l.down
  | .foldOrUp => l.foldOrUp toLowerCase
  | .unfoldOrDown => l.unfoldOrDown toLowerCase
  | .pageUp => some l.pageUp
  | .pageDown => some l.pageDown
  | .confirm => some l
  | .copy => some l
  | .cancel => if l.searchQuery ≠ [] then l.setSearch toLowerCase [] else some l
  | .filterDefault => l.setFilter toLowerCase .default
  | .filterNoTools => l.toggleFilter toLowerCase .noTools
  | .filterUserOnly => l.toggleFilter toLowerCase .userOnly
  | .filterLabeledOnly => l.toggleFilter toLowerCase .labeledOnly
  | .filterAll => l.toggleFilter toLowerCase .all
  | .cycleBackward => l.setFilter toLowerCase l.filterMode.previous
  | .cycleForward => l.setFilter toLowerCase l.filterMode.next
  | .deleteCharBackward =>
    if l.searchQuery ≠ [] then l.setSearch toLowerCase (slice l.searchQuery 0 (-1)) else some l
  | .editLabel => some l
  | .toggleLabelTimestamp => some { l with showLabelTimestamps := !l.showLabelTimestamps }
  | .text keyData =>
    if keyData.any isControlUnit ∨ keyData = [] then some l
    else l.setSearch toLowerCase (l.searchQuery ++ keyData)

def updateNodeLabel (l : TreeList) (entryId : EntryId) (label : Option String) : TreeList :=
  { l with flatNodes := l.flatNodes.map fun node =>
      if node.id = entryId then { node with label } else node }

end TreeList

/-- The list, and the entry whose label is being edited. -/
structure TreeSelector where
  list : TreeList
  labelInput : Option EntryId := none

/-- A key for the list, or what happens in the label input: its trimmed text
is submitted, or it is left. -/
inductive TreeInput where
  | key (key : TreeKey)
  | submitLabel (label : Option String)
  | cancelLabel

def TreeSelector.step (s : TreeSelector) : TreeInput → Option TreeSelector
  | .key .editLabel => match s.labelInput with
      | some _ => none
      | none => some { s with labelInput := s.list.selectedId }
  | .key key => match s.labelInput with
      | some _ => none
      | none => (s.list.handleInput toLowerCase key).map fun list => { s with list }
  | .submitLabel label => match s.labelInput with
      | none => none
      | some id => some { list := s.list.updateNodeLabel id label, labelInput := none }
  | .cancelLabel => match s.labelInput with
      | none => none
      | some _ => some { s with labelInput := none }

end Search

end ReflectivePi.Selector
