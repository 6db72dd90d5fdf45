import ReflectivePi.Curation.Tools

/-!
# Curation — Summarize

`summarize_context` as it runs: suspended at each await, with the session
free to change meanwhile, and resumed by what the awaited promise settles
to. Between two awaits it runs without interruption, so a resumption is
one step.

A call carries its history: the summaries answered so far, each with the
block that was sent, and the replacements made, each with the session
right before it.
-/

namespace ReflectivePi.Curation

open Session ParentWalk

/-- One block of the loop over the eligible blocks. -/
def refreshBlock (selection : ContextBlockSelection) (b : PruneBlock) : ContextBlockSelection :=
  match blockById selection.blocks b.id.val with
  | none => { selection with unknown := selection.unknown ++ [b.id.val] }
  | some current =>
    if b.id ∈ selection.protectedIds then
      { selection with
        protectedBlocks := selection.protectedBlocks ++ [current] }
    else { selection with eligible := selection.eligible ++ [current] }

/-- Recheck after awaits: human curation can change the protected suffix
during summarization. -/
def refreshContextBlockSelection (m : SessionManager)
    (selection : ContextBlockSelection) : ContextBlockSelection :=
  let inventory := getContextBlockInventory m
  selection.eligible.foldl refreshBlock { selection with
      blocks := inventory.blocks
      protectedIds := inventory.protectedIds
      eligible := [] }

/-- What `JSON.stringify([block.entryIds, block.messages])` keeps. -/
abbrev Snapshot := List EntryId × Option (List AgentMessage)

def snapshotContextBlock (b : PruneBlock) : Snapshot := (b.entryIds, b.messages)

/-! ## Summaries -/

/-- What `summarizeBlock` resolves to; it throws rather than return no
text. -/
@[ext] structure BlockSummary where
  text : String
  nonempty : text ≠ ""

instance : DecidableEq BlockSummary := fun a b =>
  decidable_of_iff (a.text = b.text) BlockSummary.ext_iff.symm

structure GeneratedSummary where
  block : PruneBlock
  sourceSnapshot : Snapshot
  summary : BlockSummary

/-- `summariesById.get(id)`. -/
def summaryById (summaries : List GeneratedSummary) (id : EntryId) : Option GeneratedSummary :=
  lookup (fun g => g.block.id) summaries id

def isFresh (summaries : List GeneratedSummary) (b : PruneBlock) : Bool :=
  match summaryById summaries b.id with
  | some generated => decide (generated.sourceSnapshot = snapshotContextBlock b)
  | none => false

/-- Keep the eligible blocks whose content is what was sent. -/
def keepFresh (summaries : List GeneratedSummary)
    (selection : ContextBlockSelection) : ContextBlockSelection :=
  { selection with
    eligible := selection.eligible.filter (isFresh summaries)
    staleBlocks := selection.staleBlocks
      ++ selection.eligible.filter (fun b => !isFresh summaries b) }

/-- One replacement of a block, with the session before and after it. -/
structure Replacement where
  before : SessionManager
  block : PruneBlock
  generated : GeneratedSummary
  after : SessionManager

/-! ## The call -/

inductive SummarizeState where
  /-- Awaiting the request credentials. -/
  | authorizing (selection : ContextBlockSelection)
  /-- Awaiting the summary of `block`, with the candidates that follow. -/
  | summarizing (block : PruneBlock) (sourceSnapshot : Snapshot)
      (candidates : List PruneBlock) (selection : ContextBlockSelection)
      (summaries : List GeneratedSummary)
  | returned (selection : ContextBlockSelection)
  | failed (message : String)

/-- What an awaited promise settles to. -/
inductive Answer where
  | authorized
  | summarized (summary : BlockSummary)
  | rejected (message : String)

structure Call where
  session : SessionManager
  state : SummarizeState
  answered : List GeneratedSummary
  replacements : List Replacement

def summarizationError (message : String) : String :=
  "Block summarization failed; no blocks were changed: " ++ message

/-- The call up to its first await. `model` is the model lookup, with the
text of its error. -/
def SummarizeState.start (m : SessionManager) (ids : List String)
    (model : Except String Unit) : SummarizeState :=
  if ids.isEmpty then .failed summarizeIdsError
  else
    match selectContextBlocks m ids with
    | .error message => .failed message
    | .ok selection =>
      if selection.eligible.isEmpty then .returned selection
      else
        match model with
        | .error message => .failed message
        | .ok () => .authorizing selection

def Call.start (m : SessionManager) (ids : List String)
    (model : Except String Unit) : Call :=
  ⟨m, .start m ids model, [], []⟩

/-- The next candidate that is still eligible, with those after it. -/
def nextCandidate (m : SessionManager) :
    List PruneBlock → ContextBlockSelection →
      Option (PruneBlock × List PruneBlock) × ContextBlockSelection
  | [], selection => (none, selection)
  | candidate :: rest, selection =>
    let selection := refreshContextBlockSelection m selection
    match selection.eligible.find? (fun b => b.id = candidate.id) with
    | none => nextCandidate m rest selection
    | some block => (some (block, rest), selection)

section

variable (stamp : SessionManager → Stamp)

/-- The loop that writes the summaries; it stops where one write throws. -/
def writeSummaries (summaries : List GeneratedSummary) :
    SessionManager → List PruneBlock → List Replacement × Option String
  | _, [] => ([], none)
  | m, b :: rest =>
    match summaryById summaries b.id with
    | none => ([], some "Cannot read properties of undefined (reading 'summary')")
    | some generated =>
      match setBlockSummary stamp m b.entryIds generated.summary.text with
      | .error message => ([], some message)
      | .ok m' =>
        let written := writeSummaries summaries m' rest
        (⟨m, b, generated, m'⟩ :: written.1, written.2)

/-- The session after a list of replacements. -/
def sessionAfter (m : SessionManager) (replacements : List Replacement) : SessionManager :=
  (replacements.getLast?.map Replacement.after).getD m

/-- After the last summary: check once more, then write. -/
def Call.finish (c : Call) (selection : ContextBlockSelection)
    (summaries : List GeneratedSummary) : Call :=
  let selection := keepFresh summaries (refreshContextBlockSelection c.session selection)
  let written := writeSummaries stamp summaries c.session selection.eligible
  { c with
    session := sessionAfter c.session written.1
    replacements := c.replacements ++ written.1
    state := match written.2 with
      | none => .returned selection
      | some message => .failed (summarizationError message) }

/-- Up to the next await: the next request, or the writes. -/
def Call.proceed (c : Call) (candidates : List PruneBlock)
    (selection : ContextBlockSelection) (summaries : List GeneratedSummary) : Call :=
  match nextCandidate c.session candidates selection with
  | (some (block, rest), selection) =>
    { c with state := .summarizing block (snapshotContextBlock block) rest selection summaries }
  | (none, selection) => c.finish stamp selection summaries

/-- The awaited promise settles. -/
def Call.resume (c : Call) (answer : Answer) : Call :=
  match c.state, answer with
  | .authorizing selection, .authorized =>
    c.proceed stamp selection.eligible selection []
  | .summarizing block sourceSnapshot candidates selection summaries, .summarized summary =>
      let generated := ⟨block, sourceSnapshot, summary⟩
      { c with answered := c.answered ++ [generated] }.proceed stamp candidates
        selection (summaries ++ [generated])
  | .authorizing _, .rejected message =>
    { c with state := .failed (summarizationError message) }
  | .summarizing .., .rejected message =>
    { c with state := .failed (summarizationError message) }
  | _, _ => c

/-- What a call and the session around it go through: the session changes
in any way that keeps it well formed, or the call is resumed. -/
inductive Call.Reaches (c₀ : Call) : Call → Prop where
  | start : Reaches c₀ c₀
  | meanwhile {c : Call} (h : Reaches c₀ c) {m : SessionManager}
      (hm : m.WellFormed) : Reaches c₀ { c with session := m }
  | resume {c : Call} (h : Reaches c₀ c) (answer : Answer) :
      Reaches c₀ (c.resume stamp answer)

end

/-- The ids a returned call reports: changed, protected, stale, unknown. -/
def ContextBlockSelection.reported (selection : ContextBlockSelection) : List String :=
  (selection.eligible ++ selection.protectedBlocks
    ++ selection.staleBlocks).map (fun b => b.id.val) ++ selection.unknown

end ReflectivePi.Curation
