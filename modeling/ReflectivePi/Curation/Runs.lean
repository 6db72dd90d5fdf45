import ReflectivePi.Curation.Steps

/-!
# Curation — Runs

Any sequence of curation steps, and when it keeps the projection paired.
The one step that can orphan a tool result restores a raw block that a
compaction has cut off from its exchange.
-/

namespace ReflectivePi.Curation

open List Option Session Compaction

/-- **Every step but one kind keeps a session coherent.** -/
theorem Coherent.apply {stamp : SessionManager → Stamp} (hst : Fresh stamp)
    {m : SessionManager} (h : Coherent m) {step : Curate}
    (hstep : step.KeepsExchange) : Coherent (step.apply stamp m) := by
  unfold Curate.apply Curate.perform
  cases step with
  | pruneContext ids =>
    rcases h.pruneContext hst ids with ⟨error, he⟩ | ⟨m', hm', hc⟩
    · simp only [he]
      exact h
    · simp only [hm']
      exact hc
  | summarizeContext ids summary =>
    rcases h.summarizeContext hst ids summary with ⟨error, he⟩ | ⟨m', hm', hc⟩
    · simp only [he]
      exact h
    · simp only [hm']
      exact hc
  | excludeBlock b =>
    simp only
    by_cases hb : b ∈ selectorBlocks m
    · obtain ⟨m', hm', hc⟩ := h.excludeBlock hst hb
      rw [if_pos hb, hm']
      exact hc
    · rw [if_neg hb]
      exact h
  | includeBlock b =>
    simp only
    by_cases hb : b ∈ selectorBlocks m
    · obtain ⟨m', hm', hc⟩ := h.includeBlock hst hb hstep
      rw [if_pos hb, hm']
      exact hc
    · rw [if_neg hb]
      exact h
  | compact settings summary tokensBefore details fromHook =>
    simp only
    cases hP : prepare m settings with
    | none => exact h
    | some P =>
      exact h.compact hP (hst m) summary tokensBefore details fromHook

theorem Coherent.run {stamp : SessionManager → Stamp} (hst : Fresh stamp)
    {m : SessionManager} (h : Coherent m) {steps : List Curate}
    (hsteps : ∀ step ∈ steps, step.KeepsExchange) : Coherent (run stamp m steps) := by
  induction steps generalizing m with
  | nil => exact h
  | cons step rest ih =>
    exact ih (h.apply hst (hsteps step (by simp)))
      fun s hs => hsteps s (mem_cons_of_mem _ hs)

/-- Each tool result the session shows lies in the raw block of an exchange
it shows, and no bookkeeping shows between an exchange and its results. -/
structure Joined (m : SessionManager) : Prop where
  silent : ∀ p ∈ m.buildSessionProjection.entries,
    p.sourceEntry.isSilent = true → ∀ a ∈ m.buildContextEntriesAll, ∀ r,
      Between m.getBranch a r p.sourceEntry → p.messages = []
  exchange : ∀ p ∈ m.buildSessionProjection.entries,
    (∃ message ∈ p.messages, message.isToolResult = true) →
      ∃ b ∈ selectorBlocks m, p.sourceEntry ∈ b.tail ∧ ∃ a ∈ m.buildSessionProjection.entries,
          a.sourceEntry = b.head ∧ a.messages ≠ []

theorem isToolExchange_of_call {e : SessionEntry} {message : AssistantMessage}
    (he : .assistant message ∈ sessionEntryToContextMessages e)
    (hcalls : toolCalls (.assistant message) ≠ []) :
    e.isToolExchange = true ∧ sessionEntryToContextMessages e = [.assistant message] := by
  unfold SessionEntry.isToolExchange
  unfold sessionEntryToContextMessages at he ⊢
  cases hk : e.kind with
  | message m =>
    rw [hk] at he
    simp only [mem_singleton] at he
    refine ⟨?_, by rw [he]⟩
    cases m with
    | assistant a =>
      simp only [normalizeContent, AgentMessage.assistant.injEq] at he
      rw [he] at hcalls
      cases hcontent : a.content with
      | none => simp [toolCalls, hcontent, Content.toolCalls] at hcalls
      | some content =>
        simp only [toolCalls, hcontent, getD_some, map_some] at hcalls
        simp only [hasToolCalls, toolCalls, hcontent, map_some, getD_some, Bool.not_eq_true']
        exact List.isEmpty_eq_false_iff.mpr hcalls
    | _ => cases he
  | compaction c => rw [hk] at he; cases hs : c.systemMessage <;> simp_all
  | branchSummary fromId summary =>
    rw [hk] at he
    by_cases hs : summary = "" <;> simp_all
  | customMessage => simp [hk, createCustomMessage] at he
  | _ => simp [hk] at he

theorem Paired.anchored_raw {path : List SessionEntry}
    (h : Paired (path.flatMap sessionEntryToContextMessages)) :
    Anchored path sessionEntryToContextMessages := by
  intro r hr result hmem
  obtain ⟨-, hone⟩ := shows_raw.result r result hmem
  obtain ⟨l₁, l₃, rfl⟩ := append_of_mem hr
  obtain ⟨pre', message, between, hpre, hbetween, hcall⟩ :=
    h (l₁.flatMap sessionEntryToContextMessages) result
      (l₃.flatMap sessionEntryToContextMessages) (by simp [hone])
  have hcalls : toolCalls (.assistant message) ≠ [] := by
    intro hc
    rw [AnswersCall, hc] at hcall
    cases hcall
  obtain ⟨k₁, a, k₂, u, v, rfl, ha, hu⟩ := flatMap_eq_append_cons hpre
  have hmessage : .assistant message ∈ sessionEntryToContextMessages a := by
    rw [ha]
    simp
  obtain ⟨hex, hshow⟩ := isToolExchange_of_call hmessage hcalls
  have huv : u = [] ∧ v = [] := by
    rw [hshow] at ha
    cases u with
    | nil => exact ⟨rfl, (List.cons.inj ha).2.symm⟩
    | cons y u => simp at ha
  rw [huv.1, append_nil] at hu
  have hk₂ : k₂.flatMap sessionEntryToContextMessages = between := by
    rw [flatMap_append, flatMap_cons, hshow, hu] at hpre
    exact (List.cons.inj (append_cancel_left hpre)).2
  have hresults : ∀ x ∈ k₂, ∀ m ∈ sessionEntryToContextMessages x, m.isToolResult = true := by
    intro x hx m hm
    exact hbetween m (hk₂ ▸ List.mem_flatMap.mpr ⟨x, hx, hm⟩)
  refine ⟨a, hex, ⟨k₁, k₂, l₃, by simp, ?_, hresults⟩, message, hshow, hcall⟩
  intro x hx
  cases hm : sessionEntryToContextMessages x with
  | nil => exact .inl (by rw [SessionEntry.isSilent, hm]; rfl)
  | cons m rest =>
    right
    have hres := hresults x hx m (by rw [hm]; simp)
    cases m with
    | toolResult t =>
      exact (shows_raw.result x t (by rw [hm]; simp)).1
    | _ => cases hres

theorem Joined.coherent {m : SessionManager} (h : m.WellFormed)
    (hraw : Paired (m.getBranch.flatMap sessionEntryToContextMessages))
    (hpaired : Paired m.buildSessionProjection.messages) (hj : Joined m) : Coherent m := by
  have hanchored := hraw.anchored_raw
  have hids := SessionManager.getBranch_nodup h
  have hentry : ∀ e ∈ m.getBranch, shown m e ≠ [] →
      ∃ p ∈ m.buildSessionProjection.entries, p.sourceEntry = e ∧ p.messages = shown m e := by
    intro e he hne
    have hsel := mem_selection_of_shown hne
    have hcomp : e.isCompaction = false := by
      by_contra hc
      rw [shown, shownIn, if_pos hsel, contribution, if_pos (by simpa using hc)] at hne
      exact hne rfl
    rw [← sourceEntry_projectEntries m.contextChanges (selectContextEntries m.getBranch),
      ← entries_buildSessionProjection h] at hsel
    obtain ⟨p, hp, rfl⟩ := List.mem_map.mp hsel
    exact ⟨p, hp, rfl, messages_of_mem_entries h hp hcomp⟩
  have hsilent : SilentBetween m := by
    intro a r x hx ha hs
    by_contra hne
    obtain ⟨p, hp, rfl, hmessages⟩ := hentry x hx.mem.2.2 hne
    rw [← SessionManager.buildContextEntriesAll_eq h] at ha
    exact hne (hmessages ▸ hj.silent p hp hs a ha r hx)
  refine ⟨h, hanchored, hsilent, ?_⟩
  obtain ⟨front, hm, hfront⟩ := messages_eq_shown h
  rw [hm, paired_append_iff hfront] at hpaired
  refine hpaired.anchored (shows_shown m) (fun a r x hx ha =>
    hsilent a r x hx (mem_selection_of_shown ha)) ?_
  intro r hr result hmem
  obtain ⟨p, hp, rfl, hmessages⟩ := hentry r hr (ne_nil_of_mem hmem)
  obtain ⟨b, hb, htail, a, ha, hahead, hane⟩ := hj.exchange p hp
    ⟨_, hmessages ▸ hmem, rfl⟩
  have hheads := (selectorBlocks_spec h hb).heads_tail htail
  refine ⟨b.head, (selectionShape hids).heads_path hids.of_map
    (selection_nodup h) hanchored hheads, ?_⟩
  rw [← hahead, ← messages_of_mem_entries h ha (by
    rw [hahead]
    exact not_isCompaction_of_isToolExchange hheads.1)]
  exact hane

/-- **The projection stays paired** through every run of steps none of
which restores a raw block that opens with a tool result. -/
theorem run_paired {stamp : SessionManager → Stamp} (hst : Fresh stamp)
    {m : SessionManager} (h : m.WellFormed)
    (hraw : Paired (m.getBranch.flatMap sessionEntryToContextMessages))
    (hpaired : Paired m.buildSessionProjection.messages) (hj : Joined m)
    {steps : List Curate} (hsteps : ∀ step ∈ steps, step.KeepsExchange) :
    ∀ reached, reached <+: steps →
      Paired (run stamp m reached).buildSessionProjection.messages := by
  intro reached hreached
  refine ((hj.coherent h hraw hpaired).run hst fun step hs => ?_).paired
  exact hsteps step (hreached.subset hs)

/-! ## A result cut off from its exchange -/

def readCall : SessionEntry :=
  ⟨.lit "a1", some (.lit "u1"), 2, .message (.assistant
    { content := some (.blocks [.toolCall ⟨"c1", "read", "", none⟩])
      provider := "p", model := "m", stopReason := "toolUse", usage := none
      timestamp := 2 })⟩

def readResult : SessionEntry :=
  ⟨.lit "r1", some (.lit "a1"), 3, .message (.toolResult
    { toolCallId := "c1", toolName := "read"
      content := some (.blocks [.text "text"]), isError := false
      timestamp := 3 })⟩

/-- An exchange between two user messages. -/
def exchangeEntries : List SessionEntry :=
  [ .userText (.lit "u1") none "first request", readCall, readResult,
    .userText (.lit "u2") (some (.lit "r1")) "second request" ]

def exchangeSession : SessionManager := .load true "sample" exchangeEntries

/-- The same with the exchange summarized. -/
def summarizedSession : SessionManager :=
  .load true "sample" (exchangeEntries ++
    [ ⟨.lit "e1", some (.lit "u2"), 4, .contextEdit (.lit "a1")
        (some (.blocks [.text "read a file"])) (some .summary)⟩,
      ⟨.lit "e2", some (.lit "e1"), 5, .contextEdit (.lit "r1") none (some .summary)⟩ ])

/-- The compaction keeps the omitted result, the selector restores it. -/
def orphaningSteps : List Curate :=
  [ .compact ⟨true, 0, 1⟩ "sum" 8 none false, .includeBlock { head := readResult, tail := [] } ]

theorem not_paired {messages pre post : List AgentMessage}
    {r : ToolResultMessage} (h : messages = pre ++ .toolResult r :: post)
    (hpre : ∀ m ∈ pre, m.isAssistant = false) : ¬ Paired messages := by
  intro hp
  obtain ⟨pre', a, between, rfl, -⟩ := hp pre r post h
  have hbad := hpre (.assistant a) (by simp)
  cases hbad

/-- The kept result comes back without the call the compaction
summarized. -/
theorem summarizedSession_orphans_result :
    Fresh longerStamp ∧ summarizedSession.WellFormed ∧
    Paired (summarizedSession.getBranch.flatMap
      sessionEntryToContextMessages) ∧
    Paired summarizedSession.buildSessionProjection.messages ∧
    ¬ Paired (run longerStamp summarizedSession
      orphaningSteps).buildSessionProjection.messages := by
  refine ⟨longerStamp_fresh,
    .of_ordered (by decide) (by decide) (by decide) (by decide),
    paired_of_check (by decide), paired_of_check (by decide), ?_⟩
  have hmessages : (run longerStamp summarizedSession
      orphaningSteps).buildSessionProjection.messages
      = [.compactionSummary "sum" 8 9] ++ .toolResult
          { toolCallId := "c1", toolName := "read"
            content := some (.blocks [.text "text"]), isError := false
            timestamp := 3 } ::
        [.user (some (.text "second request")) 1] := by decide
  exact not_paired hmessages (by decide)

theorem exchangeSession_contributes :
    ∀ p ∈ exchangeSession.buildSessionProjection.entries, p.sourceEntry.isSilent = true →
        ∀ a ∈ exchangeSession.buildContextEntriesAll, ∀ r,
          Between exchangeSession.getBranch a r p.sourceEntry → p.messages = [] := by
  intro p hp hs
  have hnone : ∀ p ∈ exchangeSession.buildSessionProjection.entries,
      p.sourceEntry.isSilent = false := by decide
  rw [hnone p hp] at hs
  cases hs

/-- The selector hides the exchange and restores it, and a compaction
follows. -/
def pairedSteps : List Curate :=
  [ .excludeBlock ⟨readCall, [readResult], none⟩, .includeBlock ⟨readCall, [readResult], none⟩,
    .compact ⟨true, 0, 1⟩ "sum" 8 none false ]

theorem pairedSteps_keepExchange : ∀ step ∈ pairedSteps, step.KeepsExchange := by
  intro step hs
  rcases List.mem_cons.mp hs with rfl | hs
  · exact trivial
  · rcases List.mem_cons.mp hs with rfl | hs
    · exact rfl
    · rw [List.mem_singleton.mp hs]
      exact trivial

theorem run_paired_sample :
    Paired (run longerStamp exchangeSession
      pairedSteps).buildSessionProjection.messages :=
  run_paired longerStamp_fresh
    (.of_ordered (by decide) (by decide) (by decide) (by decide))
    (paired_of_check (by decide)) (paired_of_check (by decide))
    ⟨exchangeSession_contributes, by decide⟩ pairedSteps_keepExchange
    pairedSteps (prefix_refl _)

end ReflectivePi.Curation
