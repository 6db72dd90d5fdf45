import ReflectivePi.Navigation.Leaving

/-!
# Navigation — Completion

How a navigation ends. One that does not complete leaves what was written
meanwhile and nothing else. One that completes with a generated summary has
summarized what it leaves exactly when nothing was appended while it waited:
the entries were collected before the first wait.
-/

namespace ReflectivePi.Navigation

open List ParentWalk Session LiveManager

/-! ## What a navigation owes -/

namespace Result

def isCompleted : Result → Bool
  | .completed _ _ => true
  | _ => false

/-- The summary entry of a navigation that completed with one. -/
def summaryEntry? : Result → Option SessionEntry
  | .completed _ entry => entry
  | _ => none

end Result

def statusMessages : Option (String × Nat) → List AgentMessage
  | none => []
  | some (text, timestamp) => [.contextStatus text timestamp]

/-- The leaf a navigation to `targetId` goes to, before the summary. -/
def newLeafOf (m : LiveManager) (targetId : EntryId) : Option EntryId :=
  (m.byId.get? targetId).bind fun target => (newLeaf targetId target).1

/-- The context at the new leaf, the summary `e`, and the status note. -/
def Shows (leaving : LiveManager) (newLeafId : Option EntryId)
    (status : Option (String × Nat)) (e : SessionEntry) (messages : List AgentMessage) : Prop :=
  ∃ fromId text, e.kind = .branchSummary fromId text ∧
    messages = { leaving with leafId := newLeafId }.buildSessionProjection.messages
      ++ [.branchSummary text fromId e.timestamp] ++ statusMessages status

section

variable (migrate : List FileEntry → List FileEntry × Bool) (env : Environment)

structure Proper (s : State) (targetId : EntryId) (status : Option (String × Nat))
    (o : Outcome) : Prop where
  /-- A navigation that did not complete left no trace. -/
  undone : o.result.isCompleted = false → o.state = s.writeAll migrate env o.waited
  /-- A generated summary is of what the navigation leaves at this moment. -/
  summarized : ∀ entries, o.given = some entries → o.result.summaryEntry?.isSome →
    Abandons (s.writeAll migrate env o.waited).manager.getBranch
      ((s.writeAll migrate env o.waited).manager.walk (some targetId)) entries
  shown : ∀ e, o.result.summaryEntry? = some e →
    Shows (s.writeAll migrate env o.waited).manager (newLeafOf s.manager targetId) status
      e o.state.messages

end

namespace Awaits

def hookWrites (w : Awaits) : List Write :=
  match w.hook with
  | none => []
  | some (writes, _) => writes

def answer (w : Awaits) : Except String SessionBeforeTreeResult :=
  match w.hook with
  | none => .ok {}
  | some (_, answer) => answer

/-- All that is written up to the summary. -/
def writes (w : Awaits) : List Write :=
  w.hookWrites ++ w.auth.1 ++ w.summary.1

end Awaits

/-- The navigation is not refused, cancelled or aborted, nothing fails, and
the summary is left to the model. -/
structure Generates (s : State) (targetId : EntryId) (options : NavigateOptions)
    (w : Awaits) : Prop where
  accepted : refusal s targetId options = none
  wanted : options.summarize = true
  nonempty :
    (collectEntriesForBranchSummary s.manager s.manager.leafId targetId).entries ≠ []
  uncancelled : ∃ answer, w.answer = .ok answer ∧ answer.cancel = false ∧ answer.summary = none
  authorized : ∃ u, w.auth.2 = .ok u
  written : ∃ result text, w.summary.2 = .ok result ∧ result.aborted = false ∧
    truthy result.error = none ∧ truthy result.summary = some text

variable {env : Environment} {s : State} {targetId : EntryId} {target : SessionEntry}
  {options : NavigateOptions} {w : Awaits}
  (migrate : List FileEntry → List FileEntry × Bool)

/-! ## The end of a navigation -/

theorem messages_insertContextStatus (s : State) (status : Option (String × Nat)) :
    (insertContextStatus migrate env s status).messages = s.messages ++ statusMessages status := by
  unfold insertContextStatus statusMessages
  cases status with
  | none => simp
  | some status => rfl

/-- Once nothing is waited for, a navigation completes; with a text it
completes with a summary. -/
theorem settle_spec (hfresh : env.Fresh) (h : Sound s.manager)
    (htarget : s.manager.byId.get? targetId = some target)
    (summaryText label : Option String) (status : Option (String × Nat)) :
    ∃ s' text entry, settle migrate env s targetId target summaryText label status
        = (s', .completed text entry) ∧
      (entry.isSome ↔ (truthy summaryText).isSome) ∧
      ∀ e ∈ entry, Shows s.manager (newLeaf targetId target).1 status e s'.messages := by
  have hleaf := newLeaf_mem h.good htarget
  cases htext : truthy summaryText with
  | none =>
    have hmem : targetId ∈ s.manager.getEntries.map SessionEntry.id := by
      rw [h.good.synced.byId] at htarget
      rw [← (lookup_mem htarget).2]
      exact mem_map_of_mem (lookup_mem htarget).1
    obtain ⟨s', hswitch⟩ := switchLeaf_none migrate hfresh h label hmem hleaf htext
    refine ⟨insertContextStatus migrate env s'.refreshFinalizedContext status,
      (newLeaf targetId target).2, none, ?_, by simp, by simp⟩
    unfold settle
    simp only [hswitch]
  | some text =>
    obtain ⟨s', e, fromId, hswitch, hkind, hmessages⟩ :=
      switchLeaf_some migrate hfresh h targetId label hleaf htext
    refine ⟨insertContextStatus migrate env s'.refreshFinalizedContext status,
      (newLeaf targetId target).2, some e, ?_, by simp, ?_⟩
    · unfold settle
      simp only [hswitch]
    · intro e' he'
      rw [Option.mem_some_iff] at he'
      subst he'
      refine ⟨fromId, text, hkind, ?_⟩
      rw [messages_insertContextStatus]
      show s'.manager.buildSessionProjection.messages ++ _ = _
      rw [hmessages]

/-- The three ways a navigation ends. -/
inductive Ends (migrate : List FileEntry → List FileEntry × Bool) (env : Environment)
    (s : State) (targetId : EntryId) (options : NavigateOptions) (w : Awaits)
    (o : Outcome) : Prop where
  | undone (hresult : o.result.isCompleted = false)
      (hstate : o.state = s.writeAll migrate env o.waited)
      (hnot : ¬ Generates s targetId options w)
  | completed (hresult : o.result.isCompleted = true)
      (hgiven : o.result.summaryEntry?.isSome → o.given = none)
      (hshown : ∀ e, o.result.summaryEntry? = some e →
        Shows (s.writeAll migrate env o.waited).manager (newLeafOf s.manager targetId)
          w.status e o.state.messages)
      (hnot : ¬ Generates s targetId options w)
  | generated (h : Generates s targetId options w) (hwaited : o.waited = w.writes)
      (hgiven : o.given = some
        (collectEntriesForBranchSummary s.manager s.manager.leafId targetId).entries)
      (hresult : o.result.isCompleted = true) (hentry : o.result.summaryEntry?.isSome)
      (hshown : ∀ e, o.result.summaryEntry? = some e →
        Shows (s.writeAll migrate env o.waited).manager (newLeafOf s.manager targetId)
          w.status e o.state.messages)

theorem writeAll_append (s : State) (ws ws' : List Write) :
    s.writeAll migrate env (ws ++ ws') = (s.writeAll migrate env ws).writeAll migrate env ws' :=
  foldl_append

theorem get?_writeAll (hfresh : env.Fresh) (h : Sound s.manager) {ws : List Write}
    (hws : ∀ w ∈ ws, w.appends = true) (htarget : s.manager.byId.get? targetId = some target) :
    (s.writeAll migrate env ws).manager.byId.get? targetId = some target := by
  obtain ⟨hsound, happends⟩ := writeAll_appends migrate hfresh h hws
  rw [h.good.synced.byId] at htarget
  obtain ⟨hmem, hid⟩ := lookup_mem htarget
  rw [hsound.good.synced.byId, ← hid]
  exact lookup_of_mem hsound.good.tree.distinct (happends.extends.entries target hmem)

theorem summarizeAndSettle_ends (hfresh : env.Fresh) (h : Sound s.manager)
    {label : Option String} {answer : SessionBeforeTreeResult}
    (hwrites : ∀ x ∈ w.writes, x.appends = true) (haccepted : refusal s targetId options = none)
    (htarget : s.manager.byId.get? targetId = some target) (hwanted : options.summarize = true)
    (hnonempty :
      (collectEntriesForBranchSummary s.manager s.manager.leafId targetId).entries ≠ [])
    (hanswer : w.answer = .ok answer) (hcancel : answer.cancel = false)
    (hsummary : answer.summary = none) :
    Ends migrate env s targetId options w
      (summarizeAndSettle migrate env (s.writeAll migrate env w.hookWrites) targetId target
        (collectEntriesForBranchSummary s.manager s.manager.leafId targetId).entries label
        w.hookWrites w) := by
  unfold summarizeAndSettle
  cases hauth : w.auth.2 with
  | error error =>
    refine .undone rfl ?_ ?_
    · dsimp only
      rw [writeAll_append]
    · intro hgen
      obtain ⟨u, hu⟩ := hgen.authorized
      rw [hauth] at hu
      cases hu
  | ok u =>
    have hall : (s.writeAll migrate env w.writes)
        = ((s.writeAll migrate env w.hookWrites).writeAll migrate env w.auth.1).writeAll
          migrate env w.summary.1 := by
      rw [Awaits.writes, writeAll_append, writeAll_append]
    rw [← hall]
    cases hresult : w.summary.2 with
    | error error =>
      refine .undone rfl rfl fun hgen => ?_
      obtain ⟨result, text, hok, -⟩ := hgen.written
      rw [hresult] at hok
      cases hok
    | ok result =>
      by_cases haborted : result.aborted = true
      · dsimp only
        rw [if_pos haborted]
        refine .undone rfl rfl fun hgen => ?_
        obtain ⟨result', text, hok, hnot, -⟩ := hgen.written
        rw [hresult, Except.ok.injEq] at hok
        rw [hok, hnot] at haborted
        cases haborted
      · dsimp only
        rw [if_neg haborted]
        cases herror : truthy result.error with
        | some error =>
          refine .undone rfl rfl fun hgen => ?_
          obtain ⟨result', text, hok, -, hnone, -⟩ := hgen.written
          rw [hresult, Except.ok.injEq] at hok
          rw [hok, hnone] at herror
          cases herror
        | none =>
          obtain ⟨hsound, -⟩ := writeAll_appends migrate hfresh h hwrites
          have hfound := get?_writeAll migrate hfresh h hwrites htarget
          obtain ⟨s', text, entry, hsettle, hsome, hshown⟩ := settle_spec
            migrate hfresh hsound hfound result.summary label w.status
          have hleaf : newLeafOf s.manager targetId = (newLeaf targetId target).1 := by
            simp [newLeafOf, htarget]
          rw [hsettle]
          cases htext : truthy result.summary with
          | some text' =>
            refine .generated ⟨haccepted, hwanted, hnonempty,
              ⟨answer, hanswer, hcancel, hsummary⟩, ⟨u, hauth⟩, ⟨result, text', hresult,
                by simpa using haborted, herror, htext⟩⟩ rfl rfl rfl ?_ ?_
            · exact hsome.mpr (by rw [htext]; rfl)
            · intro e he
              rw [hleaf]
              exact hshown e he
          | none =>
            have hnone : entry = none := by
              rw [htext] at hsome
              simpa using hsome
            subst hnone
            refine .completed rfl (by simp [Result.summaryEntry?])
              (by simp [Result.summaryEntry?]) fun hgen => ?_
            obtain ⟨result', text', hok, -, -, hwritten⟩ := hgen.written
            rw [hresult, Except.ok.injEq] at hok
            rw [hok, hwritten] at htext
            cases htext

theorem afterHook_ends (hfresh : env.Fresh) (h : Sound s.manager)
    {answer : SessionBeforeTreeResult} (hwrites : ∀ x ∈ w.writes, x.appends = true)
    (haccepted : refusal s targetId options = none)
    (htarget : s.manager.byId.get? targetId = some target) (hanswer : w.answer = .ok answer) :
    Ends migrate env s targetId options w
      (afterHook migrate env (s.writeAll migrate env w.hookWrites) targetId target options
        (collectEntriesForBranchSummary s.manager s.manager.leafId targetId).entries
        w.hookWrites answer w) := by
  unfold afterHook
  by_cases hcancel : answer.cancel = true
  · rw [if_pos hcancel]
    refine .undone rfl rfl fun hgen => ?_
    obtain ⟨answer', hok, hnot, -⟩ := hgen.uncancelled
    rw [hanswer, Except.ok.injEq] at hok
    rw [hok, hnot] at hcancel
    cases hcancel
  · rw [if_neg hcancel]
    by_cases hgenerate : (options.summarize &&
        !(collectEntriesForBranchSummary s.manager s.manager.leafId targetId).entries.isEmpty &&
        (if options.summarize then answer.summary else none).isNone) = true
    · rw [if_pos hgenerate]
      simp only [Bool.and_eq_true, Bool.not_eq_true', isEmpty_eq_false_iff,
        Option.isNone_iff_eq_none] at hgenerate
      obtain ⟨⟨hwanted, hnonempty⟩, hnone⟩ := hgenerate
      rw [if_pos hwanted] at hnone
      exact summarizeAndSettle_ends migrate hfresh h hwrites haccepted htarget hwanted hnonempty
        hanswer (by simpa using hcancel) hnone
    · rw [if_neg hgenerate]
      have hhook : ∀ x ∈ w.hookWrites, x.appends = true := by
        intro x hx
        refine hwrites x ?_
        rw [Awaits.writes, append_assoc]
        exact mem_append_left _ hx
      obtain ⟨hsound, -⟩ := writeAll_appends migrate hfresh h hhook
      have hfound := get?_writeAll migrate hfresh h hhook htarget
      obtain ⟨s', text, entry, hsettle, hsome, hshown⟩ := settle_spec migrate hfresh hsound hfound
        (if options.summarize then answer.summary else none)
        (answer.label.or options.label) w.status
      rw [hsettle]
      refine .completed rfl (fun _ => rfl) ?_ fun hgen => hgenerate ?_
      · intro e he
        have hleaf : newLeafOf s.manager targetId = (newLeaf targetId target).1 := by
          simp [newLeafOf, htarget]
        rw [hleaf]
        exact hshown e he
      · obtain ⟨answer', hok, -, hnone⟩ := hgen.uncancelled
        rw [hanswer, Except.ok.injEq] at hok
        rw [hok]
        simp [hgen.wanted, hgen.nonempty, hnone]

theorem navigateTree_ends (targetId : EntryId) (options : NavigateOptions)
    (hfresh : env.Fresh) (h : Sound s.manager) (hwrites : ∀ x ∈ w.writes, x.appends = true) :
    Ends migrate env s targetId options w (navigateTree migrate env s targetId options w) := by
  unfold navigateTree
  cases hrefusal : refusal s targetId options with
  | some result =>
    have hnot : ¬ Generates s targetId options w := by
      intro hgen
      rw [hgen.accepted] at hrefusal
      cases hrefusal
    cases result with
    | completed text entry =>
      have hentry : entry = none := by
        unfold refusal at hrefusal
        split_ifs at hrefusal <;> simp_all
      subst hentry
      exact .completed rfl (fun _ => rfl) (by simp [Result.summaryEntry?]) hnot
    | _ => exact .undone rfl rfl hnot
  | none =>
    cases htarget : s.manager.byId.get? targetId with
    | none =>
      refine absurd hrefusal ?_
      simp only [refusal, InsertionMap.has, htarget]
      split_ifs <;> simp_all
    | some target =>
      have hends := fun answer => @afterHook_ends env s targetId target options w migrate
        hfresh h answer hwrites hrefusal htarget
      cases hhook : w.hook with
      | none =>
        have hnone : w.hookWrites = [] := by rw [Awaits.hookWrites, hhook]
        have hanswer : w.answer = .ok {} := by rw [Awaits.answer, hhook]
        have hend := hends {} hanswer
        rw [hnone] at hend
        exact hend
      | some hook =>
        obtain ⟨writes, answer⟩ := hook
        have hsome : w.hookWrites = writes := by rw [Awaits.hookWrites, hhook]
        have hanswer : w.answer = answer := by rw [Awaits.answer, hhook]
        cases answer with
        | error error =>
          refine .undone rfl rfl fun hgen => ?_
          obtain ⟨answer, hok, -⟩ := hgen.uncancelled
          rw [hanswer] at hok
          cases hok
        | ok answer =>
          have hend := hends answer hanswer
          rw [hsome] at hend
          exact hend

theorem target_mem (h : Sound s.manager) (haccepted : refusal s targetId options = none) :
    targetId ∈ s.manager.getEntries.map SessionEntry.id := by
  refine has_byId h.good.synced ?_
  unfold refusal at haccepted
  split_ifs at haccepted with h₁ h₂ h₃ h₄ h₅
  simpa using h₅

/-- The entries collected at the start are the ones left in the end exactly
when nothing was appended. -/
theorem abandons_iff (hfresh : env.Fresh) (h : Sound s.manager) {ws : List Write}
    (hws : ∀ w ∈ ws, w.appends = true)
    (htarget : targetId ∈ s.manager.getEntries.map SessionEntry.id) :
    Abandons (s.writeAll migrate env ws).manager.getBranch
        ((s.writeAll migrate env ws).manager.walk (some targetId))
        (collectEntriesForBranchSummary s.manager s.manager.leafId targetId).entries ↔
      (s.writeAll migrate env ws).manager.getEntries = s.manager.getEntries := by
  have hstart := collectEntries_abandons h.good s.manager.leafId targetId
  have hwalk := walk_writeAll migrate hfresh h hws (k := some targetId)
    fun id hid => by
      rw [Option.mem_some_iff] at hid
      exact hid ▸ htarget
  obtain ⟨hsound, happends⟩ := writeAll_appends migrate hfresh h hws
  obtain ⟨new, hbranch, hentries, -⟩ := happends.appended
  rw [hwalk, hbranch, hentries]
  constructor
  · intro hend
    have hfilter := hend.eq_filter
    rw [List.filter_append, hstart.eq_filter, getBranch] at hfilter
    have hnone := List.self_eq_append_right.mp hfilter
    rw [filter_eq_nil_iff] at hnone
    have hdistinct := hsound.good.tree.distinct
    rw [hentries, map_append, nodup_append] at hdistinct
    have hempty : new = [] := by
      rw [eq_nil_iff_forall_not_mem]
      intro e he
      have hon : e ∈ s.manager.walk (some targetId) := by simpa using hnone e he
      rw [h.good.synced.walk_eq] at hon
      exact hdistinct.2.2 _ (mem_map_of_mem (ancestry_mem hon)) _ (mem_map_of_mem he) rfl
    rw [hempty, append_nil]
  · intro hsame
    have hempty : new = [] := List.append_right_eq_self.mp hsame
    rw [hempty, append_nil]
    exact hstart

/-- **A navigation is proper exactly when nothing is appended while a summary
is made**: it is told of the branch it left, not of the one it leaves. -/
theorem navigation_proper (hfresh : env.Fresh) (h : Sound s.manager)
    (hwrites : ∀ x ∈ w.writes, x.appends = true) :
    Proper migrate env s targetId w.status (navigateTree migrate env s targetId options w) ↔
      (Generates s targetId options w →
        (s.writeAll migrate env w.writes).manager.getEntries = s.manager.getEntries) := by
  have hends := navigateTree_ends migrate targetId options hfresh h hwrites
  generalize navigateTree migrate env s targetId options w = o at hends ⊢
  have hcompleted : o.result.summaryEntry?.isSome → o.result.isCompleted = true := by
    cases o.result <;> simp [Result.summaryEntry?, Result.isCompleted]
  constructor
  · intro hproper hgen
    cases hends with
    | undone hresult hstate hnot => exact absurd hgen hnot
    | completed hresult hgiven hshown hnot => exact absurd hgen hnot
    | generated _ hwaited hgiven hresult hentry hshown =>
      have habandons := hproper.summarized _ hgiven hentry
      rw [hwaited] at habandons
      exact (abandons_iff migrate hfresh h hwrites (target_mem h hgen.accepted)).mp habandons
  · intro hquiet
    cases hends with
    | undone hresult hstate hnot =>
      refine ⟨fun _ => hstate, fun entries _ hentry => ?_, fun e he => ?_⟩
      · rw [hcompleted hentry] at hresult
        cases hresult
      · rw [hcompleted (by rw [he]; rfl)] at hresult
        cases hresult
    | completed hresult hgiven hshown hnot =>
      refine ⟨fun hnone => ?_, fun entries hentries hentry => ?_, hshown⟩
      · rw [hresult] at hnone
        cases hnone
      · rw [hgiven hentry] at hentries
        cases hentries
    | generated hgen hwaited hgiven hresult hentry hshown =>
      refine ⟨fun hnone => ?_, fun entries hentries _ => ?_, hshown⟩
      · rw [hresult] at hnone
        cases hnone
      · rw [hgiven, Option.some.injEq] at hentries
        rw [← hentries, hwaited]
        exact (abandons_iff migrate hfresh h hwrites (target_mem h hgen.accepted)).mpr (hquiet hgen)

/-! ## A result that comes too late -/

/-- A root with one answer below it, which is the leaf. -/
def forkedFile : List FileEntry :=
  [ .session ⟨3, "old", 0, none⟩, .entry ⟨.lit "root", none, 1, .thinkingLevelChange "high"⟩,
    .entry (.userText (.lit "left") (some (.lit "root")) "question") ]

def forkedState : State where
  manager := (construct (·, false) growingEnvironment true
    (.file "old.jsonl" (.present false forkedFile))).manager
  messages := []
  isStreaming := false
  isCompacting := false
  hasModel := true

/-- The summary of the branch comes, after `meanwhile`. -/
def summaryAfter (meanwhile : List Write) : Awaits where
  hook := none
  auth := ([], .ok ())
  summary := (meanwhile, .ok { summary := some "what was asked" })
  status := some ("12% of the context used", 5)

/-- A command that ends while the summary is made. -/
def lateResult : Write :=
  recordBashResult ⟨"make", "done", false, 4⟩

theorem forkedState_sound : Sound forkedState.manager := by
  have hordered : ordered SessionEntry.id SessionEntry.parentId []
      forkedState.manager.getEntries = true := by decide
  obtain ⟨hnodup, hacyclic, hparents⟩ := ordered_nil hordered
  have hsynced : Synced forkedState.manager := synced_construct true _
  refine ⟨⟨hsynced, ⟨hnodup, hacyclic, hparents⟩⟩, ?_, ?_⟩
  · intro e he
    refine targets_of_none ?_
    revert e
    decide
  nofun

theorem navigation_proper_sample :
    Proper (·, false) growingEnvironment forkedState (.lit "root")
      (summaryAfter []).status (navigateTree (·, false) growingEnvironment forkedState (.lit "root")
        { summarize := true } (summaryAfter [])) :=
  (navigation_proper (·, false) (fun keys => SessionManager.longerId_fresh keys) forkedState_sound
    (by simp [Awaits.writes, Awaits.hookWrites, summaryAfter])).mpr fun _ => rfl

/-- The result of the command is on the branch that is left, and no part of
what was summarized. -/
theorem navigation_improper :
    ¬ Proper (·, false) growingEnvironment forkedState (.lit "root")
      (summaryAfter [lateResult]).status
      (navigateTree (·, false) growingEnvironment forkedState (.lit "root")
        { summarize := true } (summaryAfter [lateResult])) := by
  intro hproper
  have habandons := hproper.summarized
    (collectEntriesForBranchSummary forkedState.manager forkedState.manager.leafId
      (.lit "root")).entries (by decide +kernel) (by decide +kernel)
  have hlength := congrArg List.length habandons.eq_filter
  revert hlength
  decide +kernel

end ReflectivePi.Navigation
