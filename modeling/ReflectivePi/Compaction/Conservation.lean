import ReflectivePi.Compaction.Cut

/-!
# Compaction — Conservation

What the conversation shows before a compaction is what goes to the
summarizer followed by what the compaction keeps. The cut is computed on
projected entries, the kept range is recomputed from raw ids; the lemma
that joins the two views is `keptEntries_contribution`.
-/

namespace ReflectivePi.Compaction

open List Session

/-- **The raw kept range shows what the projected one does.** An entry of
the selection other than its head names, on the raw path, a range with the
same contributions, raw system entries apart. -/
theorem keptEntries_contribution {path u v : List SessionEntry}
    {x : SessionEntry} (changes : ContextChanges) (hnd : (path.map SessionEntry.id).Nodup)
    (hsel : selectContextEntries path = u ++ x :: v) (hu : u ≠ []) :
    (keptEntries x.id false path).flatMap (contribution changes)
      = ((x :: v).filter (fun e => !e.isRawSystem)).flatMap
          (contribution changes) := by
  obtain ⟨p, q, rfl, hsub, hmem⟩ := selectContextEntries_place hnd hsel hu
  have hq : (x :: q).Nodup := by
    rw [map_append, nodup_append] at hnd
    exact hnd.2.1.of_map
  rw [keptEntries_of_nodup hnd]
  conv_rhs => rw [sublist_eq_filter hsub hq, filter_filter]
  rw [flatMap_filter, flatMap_filter]
  apply flatMap_congr
  intro e he
  -- what is left out of the selection contributes nothing
  by_cases hv : e ∈ x :: v
  · simp [hv]
  · cases hsys : e.isRawSystem with
    | true => simp
    | false =>
      have hcomp : e.isCompaction = true := by
        by_contra hc
        exact hv (hmem e he hsys (by simpa using hc))
      simp [contribution, hcomp]

theorem conversation_projectTail (changes : ContextChanges) (l : List SessionEntry) :
    conversation (projectTail changes l)
      = (l.flatMap (contribution changes)).filter (fun m => !m.isSystem) := by
  induction l with
  | nil => rfl
  | cons e rest ih =>
    have hcons : conversation (projectTail changes (e :: rest))
        = getMessagesFromProjectedEntryForCompaction
            ⟨e, contribution changes e⟩
          ++ conversation (projectTail changes rest) := rfl
    rw [hcons, ih, flatMap_cons, List.filter_append]
    congr 1
    cases he : e.isCompaction <;>
      simp [getMessagesFromProjectedEntryForCompaction, contribution, he]

theorem drop_projectEntries (changes : ContextChanges) (l : List SessionEntry)
    {n : Nat} (hn : 0 < n) :
    (projectEntries changes l).drop n = projectTail changes (l.drop n) := by
  obtain ⟨n, rfl⟩ : ∃ k, n = k + 1 := ⟨n - 1, by omega⟩
  cases l with
  | nil => rfl
  | cons e rest =>
    rw [projectEntries_cons, drop_succ_cons, drop_succ_cons, projectTail, projectTail, map_drop]

/-- The projected messages before a compaction, without role-system
messages and without what the newest compaction entry contributes. -/
def visibleConversation (m : SessionManager) : List AgentMessage :=
  let newest := (newestCompaction m.getBranch).map (fun p => p.1.id)
  ((m.buildSessionProjection.entries.filter
      (fun e => decide (some e.sourceEntry.id ≠ newest))).flatMap
    ProjectedSessionEntry.messages).filter (fun m => !m.isSystem)

/-- Only the newest compaction is left out: an older one in the kept range
shows nothing anyway. -/
theorem visibleConversation_eq {m : SessionManager} (h : m.WellFormed) :
    visibleConversation m = conversation m.buildSessionProjection.entries := by
  have hnd := SessionManager.getBranch_nodup h
  unfold visibleConversation
  rw [SessionManager.buildSessionProjection_eq h.leaf]
  simp only [projectPath]
  rcases selectContextEntries_cases hnd with
    ⟨hn, hs, hnone⟩ | ⟨e, c, pre, post, hn, hk, hp, hpost, hs⟩
  · rw [hn, hs, projectEntries_eq_tail _ hnone, conversation_projectTail]
    simp [messages_projectTail]
  · have hsnd := selectContextEntries_nodup hnd
    have hcomp : e.isCompaction = true := by
      simp [SessionEntry.isCompaction, hk]
    rw [hn, hs] at *
    generalize hr : keptEntries c.firstKeptEntryId false pre ++ post = rest at *
    rw [projectEntries_cons]
    have hkeep : (projectTail m.contextChanges rest).filter
        (fun x => decide (some x.sourceEntry.id ≠ some e.id))
        = projectTail m.contextChanges rest := by
      rw [filter_eq_self]
      intro x hx
      obtain ⟨y, hy, rfl⟩ := List.mem_map.mp hx
      rw [map_cons, nodup_cons] at hsnd
      have hne : y.id ≠ e.id :=
        fun hc => hsnd.1 (hc ▸ mem_map_of_mem hy)
      simpa using hne
    have hhead : conversation [⟨e, projectContextEntry e (m.contextChanges.get? e.id)⟩] = [] := by
      simp [conversation, getMessagesFromProjectedEntryForCompaction, hcomp]
    rw [← singleton_append, conversation_append, hhead,
      nil_append, conversation_projectTail, Option.map_some, List.filter_append, hkeep]
    simp [messages_projectTail]

theorem drop_of_projectEntries_getElem? {changes : ContextChanges}
    {l : List SessionEntry} {n : Nat} {x : ProjectedSessionEntry}
    (hx : (projectEntries changes l)[n]? = some x) :
    l.drop n = x.sourceEntry :: l.drop (n + 1) := by
  have hl : l[n]? = some x.sourceEntry := by
    have := congrArg (fun l => l[n]?) (sourceEntry_projectEntries changes l)
    simpa [getElem?_map, hx] using this.symm
  obtain ⟨hn, hget⟩ := List.getElem?_eq_some_iff.mp hl
  rw [← hget, getElem_cons_drop]

theorem messages_appendCompaction {m : SessionManager} (h : m.WellFormed)
    {stamp : Stamp} (hid : stamp.id ∉ m.ids) (summary : String)
    (first : EntryId) (tokensBefore : Nat) (details : Option CompactionDetails) (fromHook : Bool) :
    (m.appendCompaction stamp summary (some first) tokensBefore details
        fromHook).buildSessionProjection.messages.filter (fun m => !m.isSystem)
      = .compactionSummary summary tokensBefore stamp.timestamp ::
        ((keptEntries first false m.getBranch).flatMap
          (contribution m.contextChanges)).filter (fun m => !m.isSystem) := by
  rw [SessionManager.appendCompaction]
  generalize hc : m.compactionEntry stamp summary (some first) tokensBefore details fromHook = c
  have hfields : c.summary = summary ∧ c.tokensBefore = tokensBefore
      ∧ c.firstKeptEntryId = first := by
    rw [← hc]
    exact ⟨rfl, rfl, rfl⟩
  obtain ⟨hsum, htok, hfirst⟩ := hfields
  rw [SessionManager.buildSessionProjection_eq (h.append_compaction hid c).leaf,
    projectPath, SessionManager.contextChanges_append_compaction h hid]
  simp only
  rw [SessionManager.selectContextEntries_append_compaction h hid, hfirst,
    projectEntries_cons, flatMap_cons, messages_projectTail, List.filter_append]
  have hfresh : m.contextChanges.get? (m.newEntry stamp (.compaction c)).id
      = none := SessionManager.contextChanges_get?_fresh h hid
  rw [hfresh]
  cases hs : c.systemMessage <;>
    simp [projectContextEntry, sessionEntryToContextMessages,
      SessionManager.newEntry, hs, hsum, htok, AgentMessage.isSystem]

/-- Where a preparation of the current branch cuts: the selection is `u`,
then the first kept entry `x` and what follows it, `v`. -/
structure PreparedAt (m : SessionManager) (settings : CompactionSettings)
    (P : CompactionPreparation) (cut : Nat) (u : List SessionEntry)
    (x : SessionEntry) (v : List SessionEntry) : Prop where
  cut_eq : cut = (findProjectedCutPoint m.buildSessionProjection.entries
    (boundaryStart m.buildSessionProjection.entries)
    settings.keepRecentTokens).firstKeptEntryIndex
  start_lt : boundaryStart m.buildSessionProjection.entries < cut
  selection : selectContextEntries m.getBranch = u ++ x :: v
  nonempty : u ≠ []
  first : P.firstKeptEntryId = x.id
  kept : m.buildSessionProjection.entries.drop cut = projectTail m.contextChanges (x :: v)
  summarized : P.messagesToSummarize ++ P.turnPrefixMessages
    = conversation (slice m.buildSessionProjection.entries
        (boundaryStart m.buildSessionProjection.entries) cut)

theorem prepare_cases {m : SessionManager} {settings : CompactionSettings}
    {P : CompactionPreparation} (h : m.WellFormed) (hP : prepare m settings = some P) :
    ∃ cut u x v, PreparedAt m settings P cut u x v := by
  have hproj : m.buildSessionProjection.entries
      = projectEntries m.contextChanges (selectContextEntries m.getBranch) := by
    rw [SessionManager.buildSessionProjection_eq h.leaf, projectPath]
  have hentries : (buildSessionProjection m.getBranch .undefined
      (some m.legacyPruneChanges)).entries
      = m.buildSessionProjection.entries := by
    rw [hproj, buildSessionProjection, SessionManager.buildSessionPath_getBranch h]
    rfl
  obtain ⟨cut, x, hcut, hstart, hx, hfirst, hsum⟩ := prepareCompaction_cases hentries hP
  have hpos : 0 < cut := Nat.zero_lt_of_lt hstart
  have hdrop := drop_of_projectEntries_getElem? (hproj ▸ hx)
  refine ⟨cut, (selectContextEntries m.getBranch).take cut, x.sourceEntry,
    (selectContextEntries m.getBranch).drop (cut + 1), hcut, hstart, ?_, ?_, hfirst, ?_, hsum⟩
  · rw [← hdrop, take_append_drop]
  · intro hc
    rcases List.take_eq_nil_iff.mp hc with hc | hc
    · omega
    · rw [hc] at hdrop
      simp at hdrop
  · rw [hproj, drop_projectEntries _ _ hpos, hdrop]

/-- **Compaction conserves the conversation.** What was visible is the two
lists handed to the summarizer followed by a kept suffix; afterwards the
conversation is the new summary followed by that suffix, less what raw
system entries of it showed. -/
theorem appendCompaction_conserves {m : SessionManager}
    {settings : CompactionSettings} {P : CompactionPreparation} {stamp : Stamp}
    (h : m.WellFormed) (hP : prepare m settings = some P)
    (hid : stamp.id ∉ m.ids) (summary : String) (tokensBefore : Nat)
    (details : Option CompactionDetails) (fromHook : Bool) :
    ∃ kept, kept <:+ m.buildSessionProjection.entries ∧
      kept.head?.map (fun e => e.sourceEntry.id) = some P.firstKeptEntryId ∧
      visibleConversation m = P.messagesToSummarize ++ P.turnPrefixMessages ++ conversation kept ∧
      (m.appendCompaction stamp summary (some P.firstKeptEntryId) tokensBefore
          details fromHook).buildSessionProjection.messages.filter
            (fun m => !m.isSystem)
        = .compactionSummary summary tokensBefore stamp.timestamp ::
          conversation (kept.filter (fun e => !e.sourceEntry.isRawSystem)) := by
  have hnd := SessionManager.getBranch_nodup h
  obtain ⟨cut, u, x, v, hat⟩ := prepare_cases h hP
  have hproj : m.buildSessionProjection.entries
      = projectEntries m.contextChanges (selectContextEntries m.getBranch) := by
    rw [SessionManager.buildSessionProjection_eq h.leaf, projectPath]
  refine ⟨m.buildSessionProjection.entries.drop cut, drop_suffix _ _, ?_, ?_, ?_⟩
  · rw [hat.kept, hat.first]
    rfl
  · have hboundary := conversation_drop_boundaryStart m.contextChanges
      (selectContextEntries m.getBranch)
    rw [← hproj] at hboundary
    rw [visibleConversation_eq h, hat.summarized, ← conversation_append,
      slice_append_drop _ (Nat.le_of_lt hat.start_lt), hboundary]
  · rw [messages_appendCompaction h hid, hat.first,
      keptEntries_contribution m.contextChanges hnd hat.selection hat.nonempty,
      hat.kept, filter_projectTail (fun e => !e.isRawSystem), conversation_projectTail]

/-! ## A summarized system entry in the kept range -/

/-- Two user messages around an injected system message that a curation
edit replaces by a summary. -/
def sampleSession : SessionManager :=
  .load true "sample" [ .userText (.lit "u1") none "first request", ⟨.lit "s1", some (.lit "u1"), 2,
        .message (.system { content := some (.text "note"), timestamp := 2 })⟩,
      .userText (.lit "u2") (some (.lit "s1")) "second", ⟨.lit "e1", some (.lit "u2"), 3,
        .contextEdit (.lit "s1") (some (.text "the note")) (some .summary)⟩ ]

def sampleStamp : Stamp := ⟨.lit "c1", 4⟩

def samplePreparation : CompactionPreparation where
  firstKeptEntryId := .lit "s1"
  messagesToSummarize := [.user (some (.text "first request")) 1]
  turnPrefixMessages := []
  isSplitTurn := false
  tokensBefore := 8
  previousSummary := none
  fileOps := ⟨[], [], []⟩
  settings := ⟨true, 0, 3⟩

theorem sampleSession_wellFormed : sampleSession.WellFormed :=
  .of_ordered (by decide) (by decide) (by decide) (by decide)

theorem prepare_sampleSession :
    prepare sampleSession ⟨true, 0, 3⟩ = some samplePreparation := by decide

/-- The sample loses the summary in its kept range: no suffix is both what
follows the summarized messages and what stays visible. -/
theorem sampleSession_loses_summary :
    sampleSession.WellFormed ∧
    prepare sampleSession ⟨true, 0, 3⟩ = some samplePreparation ∧
    sampleStamp.id ∉ sampleSession.ids ∧
    ¬ ∃ kept, visibleConversation sampleSession = samplePreparation.messagesToSummarize
          ++ samplePreparation.turnPrefixMessages ++ kept ∧
      (sampleSession.appendCompaction sampleStamp "sum"
          (some samplePreparation.firstKeptEntryId) 8 none
          false).buildSessionProjection.messages.filter (fun m => !m.isSystem)
        = .compactionSummary "sum" 8 sampleStamp.timestamp :: kept := by
  refine ⟨sampleSession_wellFormed, prepare_sampleSession, by decide, ?_⟩
  rintro ⟨kept, hbefore, hafter⟩
  have hthree : (visibleConversation sampleSession).length = 3 := by decide
  have htwo : ((sampleSession.appendCompaction sampleStamp "sum"
      (some samplePreparation.firstKeptEntryId) 8 none
      false).buildSessionProjection.messages.filter (fun m => !m.isSystem)).length = 2 := by decide
  rw [hbefore] at hthree
  rw [hafter] at htwo
  simp [samplePreparation] at hthree htwo
  omega

theorem appendCompaction_conserves_sample :
    ∃ kept, kept <:+ sampleSession.buildSessionProjection.entries ∧
      kept.head?.map (fun e => e.sourceEntry.id) = some samplePreparation.firstKeptEntryId ∧
      visibleConversation sampleSession = samplePreparation.messagesToSummarize
          ++ samplePreparation.turnPrefixMessages ++ conversation kept ∧
      (sampleSession.appendCompaction sampleStamp "sum"
          (some samplePreparation.firstKeptEntryId) 8 none
          false).buildSessionProjection.messages.filter (fun m => !m.isSystem)
        = .compactionSummary "sum" 8 sampleStamp.timestamp ::
          conversation (kept.filter (fun e => !e.sourceEntry.isRawSystem)) :=
  appendCompaction_conserves sampleSession_wellFormed prepare_sampleSession
    (by decide) "sum" 8 none false

end ReflectivePi.Compaction
