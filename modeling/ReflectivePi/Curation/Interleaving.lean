import Mathlib.Data.List.Perm.Basic
import ReflectivePi.Curation.Replacing
import ReflectivePi.Curation.Summarize

/-!
# Curation — Interleaving

What holds of `summarize_context` however its awaits interleave with other
curation of the session: a call that does not return has written nothing,
and one that returns has replaced only blocks that were, at that moment,
what the summarizer was sent. The invariant is `Call.Sound`; the lists the
tool keeps across awaits always report the same ids.
-/

namespace ReflectivePi.Curation

open List Session ParentWalk

/-! ## The lists across awaits -/

theorem reported_refreshBlock (s : ContextBlockSelection) (b : PruneBlock) :
    (refreshBlock s b).reported.Perm (s.reported ++ [b.id.val]) := by
  rw [perm_iff_count]
  intro x
  unfold refreshBlock
  cases hb : blockById s.blocks b.id.val with
  | none =>
    simp only [ContextBlockSelection.reported, count_append]
    omega
  | some current =>
    obtain ⟨-, hid⟩ := lookup_mem hb
    simp only
    split <;>
      · simp only [ContextBlockSelection.reported, map_append, count_append, map_singleton, hid]
        omega

theorem reported_foldl (l : List PruneBlock) (s : ContextBlockSelection) :
    (l.foldl refreshBlock s).reported.Perm
      (s.reported ++ l.map (fun b => b.id.val)) := by
  induction l generalizing s with
  | nil => simp
  | cons b rest ih =>
    refine (ih (refreshBlock s b)).trans ?_
    refine ((reported_refreshBlock s b).append_right _).trans ?_
    simp

/-- **A refresh reports the same ids.** -/
theorem reported_refresh (m : SessionManager) (s : ContextBlockSelection) :
    (refreshContextBlockSelection m s).reported.Perm s.reported := by
  refine (reported_foldl _ _).trans ?_
  rw [perm_iff_count]
  intro x
  simp only [ContextBlockSelection.reported, map_append, nil_append, count_append]
  omega

theorem eligible_foldl {l : List PruneBlock} {s : ContextBlockSelection}
    (hs : ∀ b ∈ s.eligible, b ∈ s.blocks ∧ b.id ∉ s.protectedIds) :
    ∀ b ∈ (l.foldl refreshBlock s).eligible, b ∈ s.blocks ∧ b.id ∉ s.protectedIds := by
  induction l generalizing s with
  | nil => exact hs
  | cons c rest ih =>
    have hstep : (refreshBlock s c).blocks = s.blocks ∧
        (refreshBlock s c).protectedIds = s.protectedIds ∧
        ∀ b ∈ (refreshBlock s c).eligible, b ∈ s.blocks ∧ b.id ∉ s.protectedIds := by
      unfold refreshBlock
      cases hc : blockById s.blocks c.id.val with
      | none => exact ⟨rfl, rfl, hs⟩
      | some current =>
        obtain ⟨hmem, hid⟩ := lookup_mem hc
        simp only
        split
        · exact ⟨rfl, rfl, hs⟩
        · rename_i hp
          refine ⟨rfl, rfl, fun b hb => ?_⟩
          rcases List.mem_append.mp hb with hb | hb
          · exact hs b hb
          · rw [List.mem_singleton.mp hb]
            refine ⟨hmem, ?_⟩
            have heq : current.id = c.id := by
              cases hcur : current.id
              cases hcid : c.id
              simp_all
            rwa [heq]
    obtain ⟨hblocks, hids, hel⟩ := hstep
    rw [foldl_cons, ← hblocks, ← hids]
    exact ih (by rwa [hblocks, hids])

theorem eligible_refresh (m : SessionManager) (s : ContextBlockSelection) :
    ∀ b ∈ (refreshContextBlockSelection m s).eligible,
      b ∈ visibleBlocks m ∧ ¬ InRecentSuffix m b := by
  intro b hb
  have hel := eligible_foldl (l := s.eligible) (s := { s with
      blocks := (getContextBlockInventory m).blocks
      protectedIds := (getContextBlockInventory m).protectedIds
      eligible := [] }) (by simp) b hb
  exact ⟨mem_visibleBlocks hel.1, fun hc => hel.2 ((mem_protectedIds hel.1).mpr hc)⟩

theorem reported_keepFresh (summaries : List GeneratedSummary) (s : ContextBlockSelection) :
    (keepFresh summaries s).reported.Perm s.reported := by
  have hsplit := filter_append_perm (isFresh summaries) s.eligible
  have hids := hsplit.map (fun b => b.id.val)
  rw [perm_iff_count] at hids ⊢
  intro x
  have hx := hids x
  simp only [ContextBlockSelection.reported, keepFresh, map_append, count_append] at hx ⊢
  omega

theorem reported_nextCandidate (m : SessionManager)
    (candidates : List PruneBlock) (s : ContextBlockSelection) :
    (nextCandidate m candidates s).2.reported.Perm s.reported := by
  induction candidates generalizing s with
  | nil => exact List.Perm.refl _
  | cons candidate rest ih =>
    unfold nextCandidate
    simp only
    split
    · exact (ih _).trans (reported_refresh m s)
    · exact reported_refresh m s

/-- What a replacement does: the block was current and unprotected, its
summary was made from what it held, and nothing else changed. -/
structure Replacement.Sound (stamp : SessionManager → Stamp)
    (answered : List GeneratedSummary) (r : Replacement) : Prop where
  answered : r.generated ∈ answered
  sent : r.generated.block.entryIds = r.block.entryIds ∧
    r.generated.block.messages = r.block.messages
  current : r.block ∈ visibleBlocks r.before
  outside : ¬ InRecentSuffix r.before r.block
  written : setBlockSummary stamp r.before r.block.entryIds r.generated.summary.text = .ok r.after
  untouched : ∀ id, id ∉ r.block.entryIds → messagesOf r.after.buildSessionProjection id
      = messagesOf r.before.buildSessionProjection id

variable {stamp : SessionManager → Stamp} {m : SessionManager}

/-- **The writes all succeed**, each on a block that is still what it was
when the call checked. -/
theorem writeSummaries_spec (hst : Fresh stamp) {summaries : List GeneratedSummary}
    (hsent : ∀ g ∈ summaries,
      g.sourceSnapshot = snapshotContextBlock g.block) (h : m.WellFormed) {blocks : List PruneBlock}
    (hfresh : ∀ b ∈ blocks, isFresh summaries b = true)
    (hcurrent : ∀ b ∈ blocks, b ∈ visibleBlocks m ∧ ¬ InRecentSuffix m b)
    (hnd : (blocks.map PruneBlock.id).Nodup) :
    (writeSummaries stamp summaries m blocks).2 = none ∧
    (writeSummaries stamp summaries m blocks).1.map Replacement.block = blocks ∧
    ∀ r ∈ (writeSummaries stamp summaries m blocks).1,
      r.after.WellFormed ∧ r.Sound stamp summaries := by
  induction blocks generalizing m with
  | nil => exact ⟨rfl, rfl, by simp [writeSummaries]⟩
  | cons b rest ih =>
    have hb := hfresh b (by simp)
    unfold isFresh at hb
    cases hg : summaryById summaries b.id with
    | none => rw [hg] at hb; cases hb
    | some g =>
      rw [hg] at hb
      have hsnap := of_decide_eq_true hb
      have hmem := (lookup_mem hg).1
      rw [hsent g hmem, snapshotContextBlock, snapshotContextBlock, Prod.mk.injEq] at hsnap
      obtain ⟨hcur, hout⟩ := hcurrent b (by simp)
      obtain ⟨m', hm', hwf, huntouched, hothers⟩ := replace_spec hst h hcur hout g.summary.nonempty
      rw [map_cons, nodup_cons] at hnd
      have hrest : ∀ c ∈ rest, c ∈ visibleBlocks m' ∧ ¬ InRecentSuffix m' c := by
        intro c hc
        obtain ⟨hcv, hco⟩ := hcurrent c (mem_cons_of_mem _ hc)
        refine hothers c hcv ?_ hco
        intro hid
        exact hnd.1 (hid ▸ mem_map_of_mem hc)
      obtain ⟨hnone, hblocks, hall⟩ := ih hwf
        (fun c hc => hfresh c (mem_cons_of_mem _ hc)) hrest hnd.2
      have hwrite : writeSummaries stamp summaries m (b :: rest)
          = (⟨m, b, g, m'⟩ :: (writeSummaries stamp summaries m' rest).1,
            (writeSummaries stamp summaries m' rest).2) := by
        simp only [writeSummaries, hg, hm']
      rw [hwrite]
      refine ⟨hnone, by rw [map_cons, hblocks], ?_⟩
      intro r hr
      rcases List.mem_cons.mp hr with rfl | hr
      · exact ⟨hwf, hmem, hsnap, hcur, hout, hm', huntouched⟩
      · exact hall r hr

/-! ## The call -/

/-- What a call knows at each of its stops. -/
def SummarizeState.Sound (stamp : SessionManager → Stamp) (seen : List String)
    (answered : List GeneratedSummary) (replacements : List Replacement) :
    SummarizeState → Prop
  | authorizing s => s.reported.Perm seen ∧ answered = [] ∧ replacements = []
  | summarizing block sourceSnapshot _ s summaries =>
    s.reported.Perm seen ∧ sourceSnapshot = snapshotContextBlock block ∧
      summaries = answered ∧ replacements = []
  | returned s => s.reported.Perm seen ∧ replacements.map Replacement.block = s.eligible ∧
      ∀ r ∈ replacements, r.Sound stamp answered
  | failed _ => replacements = []

/-- The invariant of a call, over what it reports and what it has written. -/
structure Call.Sound (stamp : SessionManager → Stamp) (seen : List String)
    (c : Call) : Prop where
  wf : c.session.WellFormed
  sent : ∀ g ∈ c.answered, g.sourceSnapshot = snapshotContextBlock g.block
  state : c.state.Sound stamp seen c.answered c.replacements

section

variable {stamp : SessionManager → Stamp} {seen : List String} {c : Call}
  {s : ContextBlockSelection}

theorem Call.finish_sound (hst : Fresh stamp) (hnd : seen.Nodup) (h : c.session.WellFormed)
    (hsent : ∀ g ∈ c.answered, g.sourceSnapshot = snapshotContextBlock g.block)
    (hs : s.reported.Perm seen) (hnone : c.replacements = []) :
    (c.finish stamp s c.answered).Sound stamp seen ∧
      ∃ s', (c.finish stamp s c.answered).state = .returned s' := by
  generalize hfinal : keepFresh c.answered (refreshContextBlockSelection c.session s) = final
  have hreported : final.reported.Perm seen := by
    rw [← hfinal]
    exact ((reported_keepFresh _ _).trans (reported_refresh _ _)).trans hs
  have heligible : ∀ b ∈ final.eligible, isFresh c.answered b = true ∧
      b ∈ visibleBlocks c.session ∧ ¬ InRecentSuffix c.session b := by
    intro b hb
    rw [← hfinal] at hb
    obtain ⟨hb, hfresh⟩ := List.mem_filter.mp hb
    exact ⟨hfresh, eligible_refresh c.session s b hb⟩
  have hids : (final.eligible.map PruneBlock.id).Nodup := by
    have hall := hreported.nodup_iff.mpr hnd
    rw [ContextBlockSelection.reported, append_assoc, map_append, append_assoc] at hall
    have hvals := (List.nodup_append.mp hall).1
    rw [show (fun b : PruneBlock => b.id.val)
      = EntryId.val ∘ PruneBlock.id from rfl, ← map_map] at hvals
    exact hvals.of_map
  obtain ⟨hok, hblocks, hall⟩ := writeSummaries_spec hst hsent h
    (fun b hb => (heligible b hb).1) (fun b hb => (heligible b hb).2) hids
  have hstate : (c.finish stamp s c.answered).state = .returned final := by
    simp only [Call.finish, hfinal, hok]
  have hreplacements : (c.finish stamp s c.answered).replacements
      = (writeSummaries stamp c.answered c.session final.eligible).1 := by
    simp only [Call.finish, hfinal, hnone, nil_append]
  refine ⟨⟨?_, hsent, ?_⟩, final, hstate⟩
  · -- the session is the one after the last write
    simp only [Call.finish, hfinal, sessionAfter]
    cases hlast : (writeSummaries stamp c.answered c.session final.eligible).1.getLast? with
    | none => exact h
    | some r => exact (hall r (mem_of_getLast? hlast)).1
  · rw [hstate]
    refine ⟨hreported, by rw [hreplacements, hblocks], ?_⟩
    intro r hr
    rw [hreplacements] at hr
    exact (hall r hr).2

theorem Call.proceed_sound (hst : Fresh stamp) (hnd : seen.Nodup) (h : c.session.WellFormed)
    (hsent : ∀ g ∈ c.answered, g.sourceSnapshot = snapshotContextBlock g.block)
    (hs : s.reported.Perm seen) (hnone : c.replacements = []) (candidates : List PruneBlock) :
    (c.proceed stamp candidates s c.answered).Sound stamp seen ∧
      ((c.proceed stamp candidates s c.answered).session = c.session ∨
        ∃ s', (c.proceed stamp candidates s c.answered).state = .returned s') := by
  have hnext := (reported_nextCandidate c.session candidates s).trans hs
  unfold Call.proceed
  cases hc : nextCandidate c.session candidates s with
  | mk found s' =>
    rw [hc] at hnext
    cases found with
    | none =>
      obtain ⟨hsound, hreturned⟩ := Call.finish_sound hst hnd h hsent hnext hnone
      exact ⟨hsound, .inr hreturned⟩
    | some p => exact ⟨⟨h, hsent, hnext, rfl, rfl, hnone⟩, .inl rfl⟩

/-- **A resumption keeps the invariant**, and changes the session only when
the call returns. -/
theorem Call.Sound.resume (hst : Fresh stamp) (hnd : seen.Nodup)
    (h : c.Sound stamp seen) (answer : Answer) :
    (c.resume stamp answer).Sound stamp seen ∧ ((c.resume stamp answer).session = c.session ∨
        ∃ s', (c.resume stamp answer).state = .returned s') := by
  obtain ⟨session, state, answered, replacements⟩ := c
  obtain ⟨hwf, hsent, hstate⟩ := h
  cases state with
  | authorizing s =>
    obtain ⟨hs, rfl, rfl⟩ := hstate
    cases answer with
    | authorized =>
      exact Call.proceed_sound hst hnd hwf hsent hs rfl s.eligible
    | summarized summary => exact ⟨⟨hwf, hsent, hs, rfl, rfl⟩, .inl rfl⟩
    | rejected message => exact ⟨⟨hwf, hsent, rfl⟩, .inl rfl⟩
  | summarizing block sourceSnapshot candidates s summaries =>
    obtain ⟨hs, rfl, rfl, rfl⟩ := hstate
    cases answer with
    | authorized => exact ⟨⟨hwf, hsent, hs, rfl, rfl, rfl⟩, .inl rfl⟩
    | summarized summary =>
      have hsent' : ∀ g ∈ summaries ++ [⟨block, snapshotContextBlock block, summary⟩],
          g.sourceSnapshot = snapshotContextBlock g.block := by
        intro g hg
        rcases List.mem_append.mp hg with hg | hg
        · exact hsent g hg
        · rw [List.mem_singleton.mp hg]
      exact Call.proceed_sound (c := ⟨session, .summarizing block _
        candidates s summaries, summaries ++ [_], []⟩) hst hnd hwf hsent' hs
        rfl candidates
    | rejected message => exact ⟨⟨hwf, hsent, rfl⟩, .inl rfl⟩
  | _ => cases answer <;> exact ⟨⟨hwf, hsent, hstate⟩, .inl rfl⟩

end

/-- The ids a call is about: those requested, trimmed, blank ones and
repetitions left out. -/
def requestedIds (m : SessionManager) (ids : List String) : List String :=
  (ids.foldl (SelectState.step (getContextBlockInventory m))
    ⟨[], [], [], []⟩).seen

theorem Call.start_sound (h : m.WellFormed) (ids : List String) (model : Except String Unit) :
    (Call.start m ids model).Sound stamp (requestedIds m ids) := by
  have hsorted := sorted_foldl (getContextBlockInventory m) ids
  refine ⟨h, by simp [Call.start], ?_⟩
  show (SummarizeState.start m ids model).Sound stamp _ [] []
  unfold SummarizeState.start
  split
  · exact rfl
  · cases hs : selectContextBlocks m ids with
    | error message => exact rfl
    | ok s =>
      have hreported : s.reported.Perm (requestedIds m ids) := by
        unfold selectContextBlocks at hs
        simp only at hs
        split at hs
        · cases hs
        · cases hs
          simpa [ContextBlockSelection.reported, requestedIds] using hsorted.reported
      simp only
      split
      · rename_i hempty
        rw [List.isEmpty_iff] at hempty
        exact ⟨hreported, by rw [hempty]; rfl, by simp⟩
      · cases model with
        | error message => exact rfl
        | ok _ => exact ⟨hreported, rfl, rfl⟩

theorem Call.Reaches.sound (hst : Fresh stamp) (h : m.WellFormed) {ids : List String}
    {model : Except String Unit} {c : Call} (hrun : Call.Reaches stamp (Call.start m ids model) c) :
    c.Sound stamp (requestedIds m ids) := by
  have hnd : (requestedIds m ids).Nodup := (sorted_foldl (getContextBlockInventory m) ids).nodup
  induction hrun with
  | start => exact Call.start_sound h ids model
  | meanwhile _ hm ih => exact ⟨hm, ih.sent, ih.state⟩
  | resume _ answer ih => exact (ih.resume hst hnd answer).1

/-- **`summarize_context` under any interleaving.** A step that does not
return changes nothing, so a call that throws has written nothing. A call
that returns has replaced exactly the blocks it reports as changed, each of
them current, unprotected and as it was sent; and it reports every
requested id, trimmed and not blank, once. -/
theorem summarizeContext_interleaved {stamp : SessionManager → Stamp}
    (hst : Fresh stamp) {m : SessionManager} (h : m.WellFormed)
    {ids : List String} {model : Except String Unit} {c : Call}
    (hrun : Call.Reaches stamp (Call.start m ids model) c) :
    (∀ answer, (∀ s, (c.resume stamp answer).state ≠ .returned s) →
      (c.resume stamp answer).session = c.session) ∧
    (∀ message, c.state = .failed message → c.replacements = []) ∧
    ∀ s, c.state = .returned s → c.replacements.map Replacement.block = s.eligible ∧
      (∀ r ∈ c.replacements, r.Sound stamp c.answered) ∧
      ∀ id ∈ ids, trim id ≠ "" → s.reported.count (trim id) = 1 := by
  have hsorted := sorted_foldl (getContextBlockInventory m) ids
  have hsound := hrun.sound hst h
  refine ⟨?_, ?_, ?_⟩
  · intro answer hnot
    rcases (hsound.resume hst hsorted.nodup answer).2 with hsame | ⟨s, hs⟩
    · exact hsame
    · exact absurd hs (hnot s)
  · intro message hstate
    have hc := hsound.state
    rw [hstate] at hc
    exact hc
  · intro s hstate
    have hc := hsound.state
    rw [hstate] at hc
    obtain ⟨hperm, hblocks, hall⟩ := hc
    refine ⟨hblocks, hall, fun id hid hne => ?_⟩
    rw [hperm.count_eq]
    refine count_eq_one_of_mem hsorted.nodup ?_
    exact (hsorted.seen _).mpr ⟨hne, mem_map_of_mem hid⟩

/-! ## A call that returns -/

/-- Nine requests, so that the first is outside the recent suffix. -/
def longSession : SessionManager :=
  .load true "sample"
    [ .userText (.lit "1") none "one", .userText (.lit "2") (some (.lit "1")) "two",
      .userText (.lit "3") (some (.lit "2")) "three", .userText (.lit "4") (some (.lit "3")) "four",
      .userText (.lit "5") (some (.lit "4")) "five", .userText (.lit "6") (some (.lit "5")) "six",
      .userText (.lit "7") (some (.lit "6")) "seven",
      .userText (.lit "8") (some (.lit "7")) "eight",
      .userText (.lit "9") (some (.lit "8")) "nine" ]

theorem longSession_wellFormed : longSession.WellFormed :=
  .of_ordered (by decide) (by decide) (by decide) (by decide)

/-- The call summarizes the oldest request and returns. -/
def sampleCall : Call :=
  ((Call.start longSession ["id-1", "id-9", " ", "x"] (.ok ())).resume
    longerStamp .authorized).resume longerStamp (.summarized ⟨"first request", by decide⟩)

theorem sampleCall_reached : Call.Reaches longerStamp
    (Call.start longSession ["id-1", "id-9", " ", "x"] (.ok ())) sampleCall :=
  (Call.Reaches.start.resume .authorized).resume _

theorem summarizeContext_interleaved_sample :
    sampleCall.replacements.length = 1 ∧
    ∀ s, sampleCall.state = .returned s →
      sampleCall.replacements.map Replacement.block = s.eligible ∧
      (∀ r ∈ sampleCall.replacements, r.Sound longerStamp sampleCall.answered) ∧
      ∀ id ∈ ["id-1", "id-9", " ", "x"], trim id ≠ "" → s.reported.count (trim id) = 1 :=
  ⟨by decide, (summarizeContext_interleaved longerStamp_fresh
    longSession_wellFormed sampleCall_reached).2.2⟩

theorem blank_id_unreported :
    ¬ ∀ (stamp : SessionManager → Stamp), Fresh stamp → ∀ m : SessionManager, m.WellFormed →
      ∀ (ids : List String) (model : Except String Unit) (c : Call),
      Call.Reaches stamp (Call.start m ids model) c →
      ∀ s, c.state = .returned s → ∀ id ∈ ids,
        s.reported.count id = 1 ∨ s.reported.count (trim id) = 1 := by
  intro hall
  have hreported : (match SummarizeState.start longSession ["id-9", " "] (.ok ()) with
      | .returned s => s.reported
      | _ => []) = ["id-9"] := by decide
  cases hs : SummarizeState.start longSession ["id-9", " "] (.ok ()) with
  | returned s =>
    rw [hs] at hreported
    have hstate : (Call.start longSession ["id-9", " "] (.ok ())).state = .returned s := hs
    have hone := hall longerStamp longerStamp_fresh longSession
      longSession_wellFormed _ _ _ .start s hstate " " (by simp)
    have hids : s.reported = ["id-9"] := hreported
    rw [hids] at hone
    revert hone
    decide
  | summarizing b snapshot candidates s summaries =>
    rw [hs] at hreported
    cases hreported
  | _ => rw [hs] at hreported; cases hreported

end ReflectivePi.Curation
