import ReflectivePi.Compaction.Conservation
import ReflectivePi.Curation.Batch

/-!
# Compaction — Checkpoint

The prompt and tool state across a compaction. The new entry stores the
system message all visible ones replay to, every other system message is
left out of the kept range, and replaying the stored message alone gives
it back. So the state survives any number of compactions; only its
timestamp moves.
-/

namespace ReflectivePi.Compaction

open List Bool InsertionMap Session SessionManager

/-! ## Replaying a checkpoint -/

/-- The map of the tools in force is keyed by their names. -/
def KeyedByName (tools : InsertionMap String Tool) : Prop :=
  ∀ p ∈ tools.entries, p.1 = p.2.name

variable {tools : InsertionMap String Tool}

theorem KeyedByName.set (h : KeyedByName tools) (t : Tool) : KeyedByName (tools.set t.name t) := by
  intro p hp
  obtain ⟨k, v⟩ := p
  rw [mem_entries_iff, get?_set] at hp
  by_cases heq : t.name = k
  · rw [if_pos heq] at hp
    obtain rfl := Option.some.inj hp
    exact heq.symm
  · rw [if_neg heq] at hp
    exact h _ (InsertionMap.mem_entries_iff.mpr hp)

theorem KeyedByName.delete (h : KeyedByName tools) (name : String) :
    KeyedByName (tools.delete name) :=
  fun p hp => h p (mem_of_mem_filter hp)

theorem keyedByName_currentToolMap (messages : List AgentMessage) :
    KeyedByName (currentToolMap messages) := by
  have hadd : ∀ (added : List Tool) (tools : InsertionMap String Tool), KeyedByName tools →
        KeyedByName (added.foldl (fun ts t => ts.set t.name t) tools) := by
    intro added
    induction added with
    | nil => exact fun _ h => h
    | cons t added ih => exact fun tools h => ih _ (h.set t)
  have hremove : ∀ (removed : List String) (tools : InsertionMap String Tool), KeyedByName tools →
        KeyedByName (removed.foldl InsertionMap.delete tools) := by
    intro removed
    induction removed with
    | nil => exact fun _ h => h
    | cons name removed ih => exact fun tools h => ih _ (h.delete name)
  refine List.foldlRecOn messages _ (fun p hp => by cases hp) ?_
  intro tools h message _
  cases message with
  | system m => exact hadd _ _ (hremove _ _ h)
  | _ => exact h

theorem foldl_set_values (h : KeyedByName tools) :
    tools.values.foldl (fun ts t => ts.set t.name t) InsertionMap.empty = tools := by
  have hmap : tools.values.map (fun t => (t.name, t)) = tools.entries := by
    rw [InsertionMap.values, map_map]
    refine (map_congr_left fun p hp => ?_).trans (map_id _)
    show (p.2.name, p.2) = p
    rw [← h p hp]
  refine ext_entries ?_
  rw [← entries_foldl_set_self tools, ← hmap, foldl_map]

variable {messages : List AgentMessage} {e : SessionEntry}

theorem foldl_step_of_not_system (h : ∀ m ∈ messages, m.isSystem = false) (r : PromptReplay) :
    messages.foldl PromptReplay.step r = r := by
  induction messages generalizing r with
  | nil => rfl
  | cons m messages ih =>
    have hm : r.step m = r := by
      have := h m mem_cons_self
      cases m <;> simp_all [PromptReplay.step, AgentMessage.isSystem]
    rw [foldl_cons, hm]
    exact ih (fun x hx => h x (mem_cons_of_mem _ hx)) r

theorem currentToolMap_append {rest : List AgentMessage} (h : ∀ m ∈ rest, m.isSystem = false) :
    currentToolMap (messages ++ rest) = currentToolMap messages := by
  unfold currentToolMap
  rw [foldl_append]
  generalize messages.foldl _ _ = tools
  induction rest generalizing tools with
  | nil => rfl
  | cons m rest ih =>
    have hm := h m mem_cons_self
    rw [foldl_cons]
    cases m with
    | system m => simp [AgentMessage.isSystem] at hm
    | _ => exact ih (fun x hx => h x (mem_cons_of_mem _ hx)) tools

/-- The message a replay ends in, from the two states it keeps. -/
def assemble (r : PromptReplay) (tools : InsertionMap String Tool) : Option SystemMessage :=
  if r.timestamp = none ∧ tools.values = [] then none
  else some
    { content := some (.text ("\n\n".intercalate r.content))
      sections := r.sections.entries.map (fun p => (p.1, some p.2))
      toolsAdded := tools.values
      timestamp := r.timestamp.getD 0 }

theorem getCurrentSystemMessage_eq (messages : List AgentMessage) :
    getCurrentSystemMessage messages
      = assemble (replayPrompt messages) (currentToolMap messages) := rfl

theorem getCurrentSystemMessage_append {rest : List AgentMessage}
    (h : ∀ m ∈ rest, m.isSystem = false) :
    getCurrentSystemMessage (messages ++ rest) = getCurrentSystemMessage messages := by
  have hr : replayPrompt (messages ++ rest) = replayPrompt messages := by
    unfold replayPrompt
    rw [foldl_append, foldl_step_of_not_system h]
  rw [getCurrentSystemMessage_eq, hr, currentToolMap_append h, getCurrentSystemMessage_eq]

theorem foldl_sections (sections : InsertionMap String String) :
    (sections.entries.map (fun p => (p.1, some p.2))).foldl (fun s p =>
        match p.2 with
        | none => s.delete p.1
        | some v => s.set p.1 v) InsertionMap.empty = sections := by
  refine ext_entries ?_
  rw [foldl_map]
  exact entries_foldl_set_self sections

/-- **A replayed system message replays to itself**, whenever it is
stamped. -/
theorem getCurrentSystemMessage_checkpoint
    {s : SystemMessage} (h : getCurrentSystemMessage messages = some s) (timestamp : Nat) :
    getCurrentSystemMessage [.system { s with timestamp }] = some { s with timestamp } := by
  rw [getCurrentSystemMessage_eq] at h
  generalize replayPrompt messages = r at h
  generalize htools : currentToolMap messages = tools at h
  have hkeyed : KeyedByName tools :=
    htools ▸ keyedByName_currentToolMap messages
  unfold assemble at h
  split at h
  · cases h
  · obtain rfl := Option.some.inj h
    have hmap : ∀ content sections, currentToolMap
        [.system ⟨content, sections, tools.values, [], timestamp⟩] = tools :=
      fun _ _ => foldl_set_values hkeyed
    have hreplay : replayPrompt [.system ⟨some (.text ("\n\n".intercalate r.content)),
          r.sections.entries.map (fun p => (p.1, some p.2)), tools.values, [], timestamp⟩]
        = ⟨if "\n\n".intercalate r.content = "" then []
            else ["\n\n".intercalate r.content], r.sections, some timestamp⟩ := by
      exact congrArg (fun sections => PromptReplay.mk (if "\n\n".intercalate r.content = "" then []
          else ["\n\n".intercalate r.content]) sections (some timestamp))
        (foldl_sections r.sections)
    have hcontent : ∀ text : String,
        "\n\n".intercalate (if text = "" then [] else [text]) = text := by
      intro text
      by_cases ht : text = ""
      · rw [if_pos ht, ht]
        rfl
      · rw [if_neg ht]
        rfl
    rw [getCurrentSystemMessage_eq, hmap, hreplay, assemble, if_neg (by simp)]
    simp only [hcontent, Option.getD_some]

theorem isSystem_replaceMessageContent (e : SessionEntry)
    (replacement : Content) (curation : Option Curation) {m : AgentMessage}
    (h : m.isSystem = false) :
    (replaceMessageContent e replacement curation m).isSystem = false := by
  cases m <;> first | rfl | cases h

theorem contextMessages_not_system (hraw : e.isRawSystem = false) (hc : e.isCompaction = false) :
    ∀ m ∈ sessionEntryToContextMessages e, m.isSystem = false := by
  intro m hm
  unfold sessionEntryToContextMessages at hm
  cases hk : e.kind with
  | message message =>
    simp only [hk, mem_singleton] at hm
    subst hm
    simpa [SessionEntry.isRawSystem, hk] using hraw
  | compaction c => simp [SessionEntry.isCompaction, hk] at hc
  | branchSummary fromId summary =>
    by_cases hs : summary = "" <;> simp [hk, hs] at hm
    subst hm
    rfl
  | customMessage customType content display details =>
    simp only [hk, mem_singleton] at hm
    subst hm
    rfl
  | _ => simp [hk] at hm

theorem contribution_not_system (changes : ContextChanges)
    (hraw : e.isRawSystem = false) : ∀ m ∈ contribution changes e, m.isSystem = false := by
  intro m hm
  unfold contribution at hm
  cases hc : e.isCompaction with
  | true => simp [hc] at hm
  | false =>
    simp only [hc, false_eq_true, if_false] at hm
    have hmessages := contextMessages_not_system hraw hc
    unfold projectContextEntry at hm
    split at hm
    · exact hmessages m hm
    · split at hm
      · exact hmessages m hm
      · cases hm
      · -- a legacy summary: one custom message, and no compaction here
        split at hm
        · cases hm
        · split at hm
          · cases hm
          · split at hm
            · rename_i hkind
              simp [SessionEntry.isCompaction, hkind] at hc
            · rw [List.mem_singleton.mp hm]
              rfl
    · cases hm
    · obtain ⟨x, hx, rfl⟩ := List.mem_map.mp hm
      exact isSystem_replaceMessageContent e _ _ (hmessages x hx)

theorem keptEntries_not_rawSystem {first : EntryId} {l : List SessionEntry} {found : Bool}
    (h : e ∈ keptEntries first found l) : e.isRawSystem = false := by
  induction l generalizing found with
  | nil => cases h
  | cons x l ih =>
    simp only [keptEntries] at h
    split at h
    · rename_i hkeep
      rcases List.mem_cons.mp h with rfl | h
      · simp only [and_eq_true, not_eq_true'] at hkeep
        exact hkeep.2
      · exact ih h
    · exact ih h

theorem keptMessages_not_system (changes : ContextChanges) (first : EntryId)
    (l : List SessionEntry) :
    ∀ m ∈ (keptEntries first false l).flatMap (contribution changes), m.isSystem = false := by
  intro m hm
  obtain ⟨e, he, hme⟩ := List.mem_flatMap.mp hm
  exact contribution_not_system changes (keptEntries_not_rawSystem he) m hme

/-! ## Across compactions -/

/-- The prompt and tool state of the projected context. -/
def currentSystem (m : SessionManager) : Option SystemMessage :=
  getCurrentSystemMessage m.buildSessionProjection.messages

/-- The state without its timestamp. -/
def untimed (s : Option SystemMessage) : Option SystemMessage :=
  s.map fun s => { s with timestamp := 0 }

/-- What is projected right after a compaction: the checkpoint, the
summary, and what the kept entries show. -/
theorem projection_append_compaction {m : SessionManager} (h : m.WellFormed)
    {stamp : Stamp} (hid : stamp.id ∉ m.ids) (c : CompactionEntry) :
    (m.append stamp (.compaction c)).buildSessionProjection.messages = (match c.systemMessage with
          | some s => [.system s]
          | none => []) ++
        .compactionSummary c.summary c.tokensBefore stamp.timestamp ::
          (keptEntries c.firstKeptEntryId false m.getBranch).flatMap
            (contribution m.contextChanges) := by
  rw [buildSessionProjection_eq (h.append_compaction hid c).leaf, projectPath,
    contextChanges_append_compaction h hid]
  simp only
  have hfresh : m.contextChanges.get? (m.newEntry stamp (.compaction c)).id
      = none := contextChanges_get?_fresh h hid
  rw [selectContextEntries_append_compaction h hid, projectEntries_cons,
    flatMap_cons, messages_projectTail, hfresh]
  cases hs : c.systemMessage <;>
    simp [projectContextEntry, sessionEntryToContextMessages, newEntry, hs]

theorem currentSystem_appendCompaction {m : SessionManager}
    (h : m.WellFormed) {stamp : Stamp} (hid : stamp.id ∉ m.ids)
    (summary : String) (firstKeptEntryId : Option EntryId)
    (tokensBefore : Nat) (details : Option CompactionDetails) (fromHook : Bool) :
    currentSystem (m.appendCompaction stamp summary firstKeptEntryId
        tokensBefore details fromHook)
      = (currentSystem m).map fun s =>
          { s with timestamp := stamp.timestamp } := by
  unfold currentSystem appendCompaction
  rw [projection_append_compaction h hid]
  have hrest : ∀ x ∈ AgentMessage.compactionSummary summary tokensBefore stamp.timestamp ::
      (keptEntries (firstKeptEntryId.getD stamp.id) false
        m.getBranch).flatMap (contribution m.contextChanges), x.isSystem = false := by
    intro x hx
    rcases List.mem_cons.mp hx with rfl | hx
    · rfl
    · exact keptMessages_not_system _ _ _ x hx
  refine (getCurrentSystemMessage_append hrest).trans ?_
  simp only [compactionEntry]
  cases hs : getCurrentSystemMessage m.buildSessionProjection.messages with
  | none => rfl
  | some s => exact getCurrentSystemMessage_checkpoint hs stamp.timestamp

/-- One call of `appendCompaction`. -/
structure CompactionRequest where
  summary : String
  firstKeptEntryId : Option EntryId
  tokensBefore : Nat
  details : Option CompactionDetails
  fromHook : Bool

def appendCompactions (stamp : SessionManager → Stamp) (m : SessionManager)
    (requests : List CompactionRequest) : SessionManager :=
  requests.foldl (fun m r => m.appendCompaction (stamp m) r.summary
    r.firstKeptEntryId r.tokensBefore r.details r.fromHook) m

/-- **The prompt and tool state is the same after any compactions**, in
content, sections and tools. -/
theorem currentSystem_appendCompactions {stamp : SessionManager → Stamp}
    (hst : Curation.Fresh stamp) {m : SessionManager} (h : m.WellFormed)
    (requests : List CompactionRequest) :
    untimed (currentSystem (appendCompactions stamp m requests)) = untimed (currentSystem m) := by
  induction requests generalizing m with
  | nil => rfl
  | cons r requests ih =>
    have hnext := ih (h.append_compaction (hst m)
      (m.compactionEntry (stamp m) r.summary r.firstKeptEntryId
        r.tokensBefore r.details r.fromHook))
    refine hnext.trans ?_
    have hone := currentSystem_appendCompaction h (hst m) r.summary
      r.firstKeptEntryId r.tokensBefore r.details r.fromHook
    unfold appendCompaction at hone
    rw [hone]
    cases currentSystem m <;> rfl

/-- A prompt with a section and a tool, patched by a later message. -/
def promptSession : SessionManager :=
  let base : AgentMessage := .system
    { content := some (.text "base")
      sections := [("mode", some "plan")]
      toolsAdded := [⟨"read", "{}"⟩]
      timestamp := 1 }
  let patch : AgentMessage := .system
    { content := some (.text "more")
      sections := [("mode", none)]
      toolsRemoved := ["read"]
      toolsAdded := [⟨"write", "{}"⟩]
      timestamp := 2 }
  .load true "s"
    [⟨.lit "s1", none, 1, .message base⟩,
      .userText (.lit "u1") (some (.lit "s1")) "hello",
      ⟨.lit "s2", some (.lit "u1"), 2, .message patch⟩]

/-- Two compactions: one from the start, one at an unknown id. -/
theorem currentSystem_appendCompactions_sample :
    untimed (currentSystem (appendCompactions Curation.longerStamp
        promptSession
        [⟨"first", none, 10, none, false⟩,
          ⟨"second", some (.lit "unknown"), 20, none, true⟩]))
      = untimed (currentSystem promptSession) := by
  have h : promptSession.WellFormed :=
    .of_ordered (by decide) (by decide) (by decide) (by decide)
  exact currentSystem_appendCompactions Curation.longerStamp_fresh h _

end ReflectivePi.Compaction
