import ReflectivePi.Compaction.Conservation
import ReflectivePi.Curation.Coherence

/-!
# Curation — Steps

The steps of a curated session and what each of them keeps: the two tools
hide whole visible blocks, the selector hides or restores a whole raw
block, and a compaction hides everything before a cut point.
-/

namespace ReflectivePi.Curation

open List Session Compaction

/-! ## The steps -/

/-- A curation step, as its caller asks for it. -/
inductive Curate where
  | pruneContext (ids : List String)
  | summarizeContext (ids : List String) (summary : EntryId → String)
  | excludeBlock (block : PruneBlock)
  | includeBlock (block : PruneBlock)
  | compact (settings : CompactionSettings) (summary : String)
      (tokensBefore : Nat) (details : Option CompactionDetails)
      (fromHook : Bool)

def selectorBlocks (m : SessionManager) : List PruneBlock :=
  groupPruneBlocks m.buildContextEntriesAll

def Curate.perform (stamp : SessionManager → Stamp) (m : SessionManager) :
    Curate → Except String SessionManager
  | pruneContext ids => Curation.pruneContext stamp m ids
  | summarizeContext ids summary =>
    Curation.summarizeContext stamp m ids summary
  | excludeBlock b =>
    if b ∈ selectorBlocks m then setPruneState stamp m b.entryIds .excluded
    else .ok m
  | includeBlock b =>
    if b ∈ selectorBlocks m then setPruneState stamp m b.entryIds .included
    else .ok m
  | compact settings summary tokensBefore details fromHook =>
    match prepare m settings with
    | none => .ok m
    | some P => .ok (m.appendCompaction (stamp m) summary
        (some P.firstKeptEntryId) tokensBefore details fromHook)

/-- A step that throws leaves the session as it is. -/
def Curate.apply (stamp : SessionManager → Stamp) (m : SessionManager)
    (step : Curate) : SessionManager :=
  match step.perform stamp m with
  | .ok m' => m'
  | .error _ => m

/-- The steps that cannot orphan a tool result: all but restoring a block
that opens with one. -/
def Curate.KeepsExchange : Curate → Prop
  | includeBlock b => b.head.isRawToolResult = false
  | _ => True

def run (stamp : SessionManager → Stamp) (m : SessionManager)
    (steps : List Curate) : SessionManager :=
  steps.foldl (Curate.apply stamp) m

section

variable {stamp : SessionManager → Stamp} {m : SessionManager}

variable {s : ContextBlockSelection}

theorem selectContextBlocks_eligible {ids : List String} (hs : selectContextBlocks m ids = .ok s) :
    ∀ b ∈ s.eligible, ∃ b₀, b₀ ∈ groupPruneBlocks (visibleEntries m.buildSessionProjection) ∧
      b = contributedBlock m.buildSessionProjection b₀ ∧
      b₀.id ∈ m.buildContextEntries.map SessionEntry.id := by
  intro b hb
  unfold selectContextBlocks at hs
  simp only at hs
  split at hs
  · cases hs
  · cases hs
    exact mem_inventory ((sorted_foldl _ ids).eligible b hb).1

theorem eligible_editable (h : m.WellFormed) {ids : List String}
    (hs : selectContextBlocks m ids = .ok s) :
    ∀ b ∈ s.eligible, ∀ t ∈ b.entryIds, Editable m t := by
  intro b hb t ht
  obtain ⟨b₀, hb₀, rfl, -⟩ := selectContextBlocks_eligible hs b hb
  rw [entryIds_contributedBlock] at ht
  exact editable_of_visible h hb₀ t ht

theorem Coherent.eligible_closed (h : Coherent m) {ids : List String}
    (hs : selectContextBlocks m ids = .ok s) {a r : SessionEntry}
    {result : ToolResultMessage} (har : Heads m.getBranch a r) (hr : .toolResult result ∈ shown m r)
    (ha : a.id ∈ s.eligible.flatMap PruneBlock.entryIds) :
    r.id ∈ s.eligible.flatMap PruneBlock.entryIds := by
  obtain ⟨b, hb, hab⟩ := List.mem_flatMap.mp ha
  obtain ⟨b₀, hb₀, rfl, -⟩ := selectContextBlocks_eligible hs b hb
  refine List.mem_flatMap.mpr ⟨_, hb, ?_⟩
  rw [entryIds_contributedBlock] at hab ⊢
  exact h.visible_closed hb₀ har hr hab

theorem Coherent.pruneContext (hst : Fresh stamp) (h : Coherent m) (ids : List String) :
    (∃ error, Curation.pruneContext stamp m ids = .error error) ∨
      ∃ m', Curation.pruneContext stamp m ids = .ok m' ∧ Coherent m' := by
  unfold Curation.pruneContext
  split
  · exact .inl ⟨_, rfl⟩
  · cases hs : selectContextBlocks m ids with
    | error error => exact .inl ⟨error, rfl⟩
    | ok s =>
      right
      obtain ⟨m', hm', he⟩ := foldlM_edited
        (q := fun _ change => change = some (.edit none none)) h.wf
        (eligible_editable h.wf hs)
        (fun b _ m₁ h₁ hedit =>
          setPruneState_edited hst h₁ hedit .excluded (fun _ _ _ hr => hr))
      refine ⟨m', hm', h.hide he ?_ fun a r result => h.eligible_closed hs⟩
      simp

/-- Once the ids are selected, `summarize_context` succeeds: it replaces
heads that are no tool results. -/
theorem Coherent.summarizeContext (hst : Fresh stamp) (h : Coherent m)
    (ids : List String) (summary : EntryId → String) :
    (∃ error, Curation.summarizeContext stamp m ids summary = .error error) ∨
      ∃ m', Curation.summarizeContext stamp m ids summary = .ok m' ∧ Coherent m' := by
  unfold Curation.summarizeContext
  split
  · exact .inl ⟨_, rfl⟩
  · cases hs : selectContextBlocks m ids with
    | error error => exact .inl ⟨error, rfl⟩
    | ok s =>
      right
      have hq : ∀ b ∈ s.eligible, ∀ e ∈ m.getBranch, e.isRawToolResult = true → e.id ≠ b.id := by
        rintro b hb e he hr hid
        obtain ⟨b₀, hb₀, rfl, hsel⟩ := selectContextBlocks_eligible hs b hb
        rw [id_contributedBlock] at hid
        have hat := groupPruneBlocks_spec (visibleEntries_nodup h.wf) hb₀
        have hmem := (hat.mem_entries (e := b₀.head) (by simp [PruneBlock.entries])).1
        have hhead := branch_inj h.wf he (mem_branch_of_visible h.wf hmem) hid
        have hnot := h.selectable_head hb₀ hsel
        rw [← hhead, hr] at hnot
        cases hnot
      obtain ⟨m', hm', he⟩ := foldlM_edited (q := fun t change => ∀ e ∈ m.getBranch, e.id = t →
          e.isRawToolResult = true → ∃ curation, change = some (.edit none curation)) h.wf
        (eligible_editable h.wf hs)
        (fun b hb m₁ h₁ hedit =>
          setBlockSummary_edited hst h₁ hedit (summary b.id)
            (fun replacement _ e he hid hr => absurd hid (hq b hb e he hr))
            (fun _ _ _ _ _ _ => ⟨_, rfl⟩))
      refine ⟨m', hm', h.hide he ?_ fun a r result => h.eligible_closed hs⟩
      exact fun e hb hr _ change hc => hc e hb rfl hr

end

/-! ## The selector -/

section

variable {stamp : SessionManager → Stamp} {m : SessionManager}
  {b : PruneBlock}

theorem selectorBlocks_spec (h : m.WellFormed) (hb : b ∈ selectorBlocks m) :
    BlockAt (selectContextEntries m.getBranch) b := by
  unfold selectorBlocks at hb
  rw [SessionManager.buildContextEntriesAll_eq h] at hb
  exact groupPruneBlocks_spec (selection_nodup h) hb

theorem mem_branch_of_selected (h : m.WellFormed) {e : SessionEntry}
    (he : e ∈ selectContextEntries m.getBranch) : e ∈ m.getBranch :=
  mem_of_mem_selectContextEntries (SessionManager.getBranch_nodup h) he

section

variable (h : m.WellFormed) (hb : b ∈ selectorBlocks m)

include h hb

theorem editable_of_selector :
    ∀ t ∈ b.entryIds, Editable m t := by
  intro t ht
  obtain ⟨e, he, rfl⟩ := mem_entryIds.mp ht
  obtain ⟨hm, hs⟩ := (selectorBlocks_spec h hb).mem_entries he
  exact ⟨e, mem_branch_of_selected h hm, rfl, hs⟩

theorem mem_entries_of_id
    {e : SessionEntry} (he : e ∈ m.getBranch) (hid : e.id ∈ b.entryIds) :
    e ∈ b.entries ∧ e ∈ selectContextEntries m.getBranch := by
  obtain ⟨x, hx, hxe⟩ := mem_entryIds.mp hid
  have hm := ((selectorBlocks_spec h hb).mem_entries hx).1
  obtain rfl := branch_inj h (mem_branch_of_selected h hm) he hxe
  exact ⟨hx, hm⟩

theorem selector_closed
    {a r : SessionEntry} (har : Heads m.getBranch a r)
    (ha : a.id ∈ b.entryIds) : r.id ∈ b.entryIds := by
  obtain ⟨hab, hasel⟩ := mem_entries_of_id h hb har.mem.1 ha
  have hids := SessionManager.getBranch_nodup h
  have hrsel := (selectionShape hids).mem_of_heads hids.of_map har hasel
  have hsel := (selectionShape hids).heads hids.of_map har hasel hrsel
  exact mem_entryIds.mpr ⟨r, (selectorBlocks_spec h hb).mem_of_heads
    (selection_nodup h) hsel hab, rfl⟩

end

theorem Coherent.excludeBlock (hst : Fresh stamp) (h : Coherent m) (hb : b ∈ selectorBlocks m) :
    ∃ m', setPruneState stamp m b.entryIds .excluded = .ok m' ∧ Coherent m' := by
  obtain ⟨m', hm', he⟩ := setPruneState_edited hst h.wf
    (editable_of_selector h.wf hb) .excluded
    (q := fun _ change => change = some (.edit none none))
    (fun _ _ _ hr => hr)
  refine ⟨m', hm', h.hide he ?_ ?_⟩
  · simp
  · exact fun a r _ har _ ha => selector_closed h.wf hb har ha

theorem Coherent.includeBlock (hst : Fresh stamp) (h : Coherent m)
    (hb : b ∈ selectorBlocks m) (hhead : b.head.isRawToolResult = false) :
    ∃ m', setPruneState stamp m b.entryIds .included = .ok m' ∧ Coherent m' := by
  obtain ⟨m', hm', he⟩ := setPruneState_edited hst h.wf
    (editable_of_selector h.wf hb) .included
    (q := fun _ change => change = none) (fun _ _ _ hr => hr)
  have hids := SessionManager.getBranch_nodup h.wf
  refine ⟨m', hm', h.restore he ?_ ?_ ?_⟩
  · exact fun e he ht => (mem_entries_of_id h.wf hb he ht).2
  · intro r hr ht hres
    obtain ⟨hmem, -⟩ := mem_entries_of_id h.wf hb hr ht
    have htail : r ∈ b.tail := by
      rcases List.mem_cons.mp hmem with rfl | hmem
      · rw [hres] at hhead
        cases hhead
      · exact hmem
    have hsel := (selectorBlocks_spec h.wf hb).heads_tail htail
    refine ⟨b.head, mem_entryIds.mpr ⟨b.head, mem_cons_self, rfl⟩, ?_⟩
    exact (selectionShape hids).heads_path hids.of_map (selection_nodup h.wf) h.raw hsel
  · exact fun a x hax ha => selector_closed h.wf hb hax ha

end

section

variable {m : SessionManager}

variable {settings : CompactionSettings} {P : CompactionPreparation}

/-- What shows in the selection from the cut on starts at an entry with a
message that is no tool result. -/
theorem shape_of_preparedAt {cut : Nat} {u : List SessionEntry} {x : SessionEntry}
    {v : List SessionEntry} (hat : PreparedAt m settings P cut u x v) :
    ∃ a b, x :: v = a ++ b ∧ (∀ e ∈ a, contribution m.contextChanges e = [] ∨ e.isSilent = true) ∧
      ∀ y ∈ b.head?, ∃ message ∈ contribution m.contextChanges y, message.isToolResult = false := by
  obtain ⟨a, b, hab, ha, hb⟩ := drop_cut_shape hat.cut_eq hat.start_lt
  rw [hat.kept, projectTail, map_eq_append_iff] at hab
  obtain ⟨a', b', heq, rfl, rfl⟩ := hab
  refine ⟨a', b', heq, ?_, ?_⟩
  · intro e he
    exact ha _ (mem_map_of_mem he)
  · intro y hy
    have hpoint := hb ⟨y, contribution m.contextChanges y⟩ (by
      rw [head?_map, Option.mem_def.mp hy]
      rfl)
    rw [isCutPointEntry, Bool.and_eq_true, any_eq_true] at hpoint
    obtain ⟨-, message, hmem, hcut⟩ := hpoint
    refine ⟨message, hmem, ?_⟩
    cases message <;> first | rfl | cases hcut

/-- **A kept result keeps its exchange**: the message the cut was made at
would stand between the two. -/
theorem Coherent.exchange_kept (h : Coherent m) {cut : Nat} {u p q : List SessionEntry}
    {x : SessionEntry} {v : List SessionEntry} (hat : PreparedAt m settings P cut u x v)
    (hp : m.getBranch = p ++ x :: q) (hsub : (x :: v).Sublist (x :: q))
    (hmem : ∀ e ∈ x :: q, e.isRawSystem = false → e.isCompaction = false →
      e ∈ x :: v) {a r : SessionEntry} {result : ToolResultMessage}
    (har : Heads m.getBranch a r) (hres : .toolResult result ∈ shown m r)
    (hr : r ∈ x :: q) : a ∈ x :: q := by
  by_contra hout
  have hap : a ∈ p := by
    have ha := har.mem.1
    rw [hp] at ha
    exact (List.mem_append.mp ha).resolve_right hout
  have hnd := branch_nodup h.wf
  have hrv := hmem r hr (not_isRawSystem_of_isRawToolResult har.2.1)
    (not_isCompaction_of_isRawToolResult har.2.1)
  have hshown : ∀ e ∈ x :: v, shown m e = contribution m.contextChanges e := by
    intro e he
    rw [shown, shownIn, if_pos (by
      rw [hat.selection]
      exact List.mem_append.mpr (.inr he))]
  obtain ⟨l, b, hlb, hl, hb⟩ := shape_of_preparedAt hat
  have hrb : r ∈ b := by
    rw [hlb] at hrv
    refine (List.mem_append.mp hrv).resolve_left fun hc => ?_
    rcases hl r hc with hnil | hs
    · rw [hshown r (by rw [hlb]; simp [hc]), hnil] at hres
      cases hres
    · exact not_toolResult_of_silent hs result hres
  cases b with
  | nil => cases hrb
  | cons y b =>
    obtain ⟨message, hmessage, hnot⟩ := hb y (by simp)
    have hyv : y ∈ x :: v := by
      rw [hlb]
      simp
    rw [← hshown y hyv] at hmessage
    have hrb' : r ∈ b := by
      rcases List.mem_cons.mp hrb with rfl | hrb
      · rw [((shows_shown _).result r result hres).2, mem_singleton] at hmessage
        rw [hmessage] at hnot
        cases hnot
      · exact hrb
    -- the cut point lies after the exchange and before the result
    obtain ⟨s₁, s₂, hs⟩ := append_of_mem (hsub.subset hyv)
    have hxq : (x :: q).Nodup := by
      rw [hp] at hnd
      exact (List.nodup_append.mp hnd).2.1
    have hrs := SelectionShape.mem_after_of_sublist hsub hxq hs hlb hrb'
    obtain ⟨t₁, t₂, rfl⟩ := append_of_mem hrs
    obtain ⟨p₁, p₂, rfl⟩ := append_of_mem hap
    obtain ⟨a', ha'⟩ := h.anchored r har.mem.2 result hres
    obtain rfl := (ha'.heads har.2.1).unique hnd har
    obtain ⟨l₁, l₂, l₃, hpath, -, hbetween⟩ := ha'.place
    have heq : p₁ ++ a' :: (p₂ ++ s₁ ++ y :: (t₁ ++ r :: t₂)) = l₁ ++ a' :: (l₂ ++ r :: l₃) := by
      rw [← hpath, hp, hs]
      simp
    rw [hpath] at hnd
    obtain ⟨-, hrest⟩ := append_cons_unique (heq ▸ hnd) heq
    have hrest' : (p₂ ++ s₁ ++ y :: t₁) ++ r :: t₂ = l₂ ++ r :: l₃ := by
      rw [← hrest]
      simp
    have hnd₂ : (l₂ ++ r :: l₃).Nodup := ((List.nodup_append.mp hnd).2.1).of_cons
    obtain ⟨hl₂, -⟩ := append_cons_unique (hrest' ▸ hnd₂) hrest'
    have hbad := hbetween y (by rw [← hl₂]; simp) message hmessage
    rw [hnot] at hbad
    cases hbad

theorem Coherent.compact (h : Coherent m) (hP : prepare m settings = some P)
    {stamp : Stamp} (hid : stamp.id ∉ m.ids) (summary : String) (tokensBefore : Nat)
    (details : Option CompactionDetails) (fromHook : Bool) :
    Coherent (m.appendCompaction stamp summary (some P.firstKeptEntryId)
      tokensBefore details fromHook) := by
  rw [SessionManager.appendCompaction]
  generalize hc : m.compactionEntry stamp summary (some P.firstKeptEntryId)
    tokensBefore details fromHook = c
  have hfirst : c.firstKeptEntryId = P.firstKeptEntryId := by
    rw [← hc]
    rfl
  obtain ⟨cut, u, x, v, hat⟩ := prepare_cases h.wf hP
  have hids := SessionManager.getBranch_nodup h.wf
  obtain ⟨p, q, hp, hsub, hmem⟩ := selectContextEntries_place hids hat.selection hat.nonempty
  have hsel := SessionManager.selectContextEntries_append_compaction h.wf hid c
  have hkept : keptEntries c.firstKeptEntryId false m.getBranch
      = (x :: q).filter (fun e => !e.isRawSystem) := by
    rw [hfirst, hat.first, hp]
    exact keptEntries_of_nodup (hp ▸ hids)
  rw [hkept] at hsel
  have hnew : ∀ e ∈ m.getBranch, e ≠ m.newEntry stamp (.compaction c) := by
    rintro e he rfl
    exact hid (SessionManager.id_mem_of_mem_getBranch he)
  have hshown : ∀ e ∈ m.getBranch, shown (m.append stamp (.compaction c)) e
        = if e ∈ (x :: q).filter (fun e => !e.isRawSystem) then shown m e
          else [] := by
    intro e he
    rw [shown, shownIn, hsel, SessionManager.contextChanges_append_compaction h.wf hid]
    simp only [mem_cons, hnew e he, false_or]
    split
    · rename_i hk
      rw [shown, shownIn]
      split
      · rfl
      · -- out of the old selection: an older compaction
        rename_i hout
        obtain ⟨hxq, hsys⟩ := List.mem_filter.mp hk
        have hcomp : e.isCompaction = true := by
          by_contra hn
          apply hout
          rw [hat.selection]
          exact List.mem_append.mpr (.inr (hmem e hxq (by simpa using hsys) (by simpa using hn)))
        rw [contribution, hcomp]
        rfl
    · rfl
  have hcompaction : ∀ change r,
      .toolResult r ∉ projectContextEntry (m.newEntry stamp (.compaction c)) change := by
    intro change r hr
    have := (project_of_compaction rfl change _ hr).1
    cases this
  have hbranch := SessionManager.getBranch_append h.wf hid (.compaction c)
  have hsilent : ∀ a r z, Between m.getBranch a r z →
      a ∈ selectContextEntries (m.append stamp (.compaction c)).getBranch →
      z.isSilent = true → shown (m.append stamp (.compaction c)) z = [] := by
    intro a r z hz ha hs
    rw [hshown z hz.mem.2.2]
    split
    · rw [hsel, mem_cons] at ha
      have hk := (List.mem_filter.mp (ha.resolve_left (hnew a hz.mem.1))).1
      refine h.silent a r z hz ?_ hs
      rw [hat.selection]
      exact List.mem_append.mpr (.inr (hmem a hk (not_isRawSystem_of_isToolExchange hz.1)
        (not_isCompaction_of_isToolExchange hz.1)))
    · rfl
  refine ⟨h.wf.append_compaction hid c, ?_, ?_, ?_⟩
  · rw [hbranch]
    refine h.raw.append fun e he r hr => ?_
    rw [List.mem_singleton.mp he] at hr
    exact hcompaction none r hr
  · intro a r z hz ha hs
    have hr : r ∈ m.getBranch := by
      have hmem := hz.mem.2.1
      rw [hbranch] at hmem
      refine (List.mem_append.mp hmem).resolve_right fun hn => ?_
      have hcomp := not_isCompaction_of_isRawToolResult hz.2.1
      rw [List.mem_singleton.mp hn] at hcomp
      cases hcomp
    have hnd := branch_nodup (h.wf.append_compaction hid c)
    rw [hbranch] at hnd hz
    exact hsilent a r z (hz.of_append hnd hr) ha hs
  · rw [hbranch]
    refine Anchored.append ?_ fun e he r hr => ?_
    · refine h.anchored.hide (shows_shown _)
        (fun e => e ∉ (x :: q).filter (fun e => !e.isRawSystem)) ?_ ?_
        (fun a r z hz ha => hsilent a r z hz (mem_selection_of_shown ha)) ?_
      · intro e he hk
        rw [hshown e he, if_pos (not_not.mp hk)]
      · intro e he hk
        have hnil := hshown e he
        rw [if_neg hk] at hnil
        exact ⟨by simp [hnil], fun _ => hnil⟩
      · intro a r result har hres hout hin
        have hrq := (List.mem_filter.mp hin).1
        have ha := h.exchange_kept hat hp hsub hmem har hres hrq
        refine hout (List.mem_filter.mpr ⟨ha, ?_⟩)
        rw [not_isRawSystem_of_isToolExchange har.1]
        rfl
    · rw [List.mem_singleton.mp he] at hr
      rcases shown_cases (m.append stamp (.compaction c))
        (m.newEntry stamp (.compaction c)) with hnil | hproj
      · rw [hnil] at hr
        cases hr
      · rw [hproj] at hr
        exact hcompaction _ r hr

end

end ReflectivePi.Curation
