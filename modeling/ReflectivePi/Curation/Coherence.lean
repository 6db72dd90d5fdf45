import ReflectivePi.Curation.Selection

/-!
# Curation — Coherence

The invariant of a curated session: every tool result, raw or shown, is
anchored to its exchange. Hiding blocks keeps it, because a visible block
has all the visible results of its exchange; restoring a raw block keeps
it when the block is opened by its exchange.
-/

namespace ReflectivePi.Curation

open List Session

/-- Bookkeeping between a selected exchange and its results shows nothing. -/
def SilentBetween (m : SessionManager) : Prop :=
  ∀ a r x, Between m.getBranch a r x →
    a ∈ selectContextEntries m.getBranch → x.isSilent = true → shown m x = []

structure Coherent (m : SessionManager) : Prop where
  wf : m.WellFormed
  raw : Anchored m.getBranch sessionEntryToContextMessages
  silent : SilentBetween m
  anchored : Anchored m.getBranch (shown m)

variable {m : SessionManager}

theorem mem_selection_of_shown {e : SessionEntry} (h : shown m e ≠ []) :
    e ∈ selectContextEntries m.getBranch := by
  by_contra hn
  rw [shown, shownIn, if_neg hn] at h
  exact h rfl

theorem not_toolResult_of_silent {e : SessionEntry} (he : e.isSilent = true)
    (r : ToolResultMessage) : .toolResult r ∉ shown m e := by
  intro hr
  have hres := ((shows_shown m).result e r hr).1
  rw [SessionEntry.not_isSilent_of_isRawToolResult hres] at he
  cases he

theorem branch_nodup (h : m.WellFormed) :
    m.getBranch.Nodup := (SessionManager.getBranch_nodup h).of_map

theorem branch_inj (h : m.WellFormed) {a b : SessionEntry} (ha : a ∈ m.getBranch)
    (hb : b ∈ m.getBranch) (hid : a.id = b.id) : a = b :=
  inj_on_of_nodup_map (SessionManager.getBranch_nodup h) ha hb hid

theorem Coherent.paired (h : Coherent m) : Paired m.buildSessionProjection.messages := by
  obtain ⟨front, hm, hfront⟩ := messages_eq_shown h.wf
  rw [hm, paired_append_iff hfront]
  exact h.anchored.paired (shows_shown _) (branch_nodup h.wf)

/-! ## What an edited session shows -/

theorem shown_cases (m : SessionManager) (e : SessionEntry) :
    shown m e = [] ∨ shown m e = projectContextEntry e (m.contextChanges.get? e.id) := by
  unfold shown shownIn
  split
  · unfold contribution
    split
    · exact .inl rfl
    · exact .inr rfl
  · exact .inl rfl

namespace Edited

variable {m m' : SessionManager} {touched : List EntryId}
  {q : EntryId → Option ResolvedContextChange → Prop}

section

variable (he : Edited m m' touched q)

include he

theorem not_silent (h : m.WellFormed)
    {e : SessionEntry} (hb : e ∈ m.getBranch) (ht : e.id ∈ touched) : e.isSilent = false := by
  obtain ⟨x, hx, hid, hs⟩ := he.targets e.id ht
  rwa [← branch_inj h hx hb hid]

theorem mem_selection {e : SessionEntry} (hb : e ∈ m.getBranch) :
    e ∈ selectContextEntries m'.getBranch ↔ e ∈ selectContextEntries m.getBranch := by
  obtain ⟨es, -, hes, hs⟩ := he.branch
  rw [hs, mem_append]
  constructor
  · rintro (hm | hm)
    · exact hm
    · exact absurd (SessionManager.id_mem_of_mem_getBranch hb) (hes e hm).2.2
  · exact .inl

theorem shown_kept {e : SessionEntry}
    (hb : e ∈ m.getBranch) (ht : e.id ∉ touched) : shown m' e = shown m e := by
  unfold shown shownIn contribution
  simp only [he.mem_selection hb, he.kept e.id ht]

theorem silentBetween (h : m.WellFormed)
    (hsilent : SilentBetween m) : SilentBetween m' := by
  obtain ⟨es, hb, hes, -⟩ := he.branch
  intro a r x hx ha hs
  have hr : r ∈ m.getBranch := by
    have hmem := hx.mem.2.1
    rw [hb] at hmem
    refine (List.mem_append.mp hmem).resolve_right fun hc => ?_
    have hsr := (hes r hc).1
    rw [SessionEntry.not_isSilent_of_isRawToolResult hx.2.1] at hsr
    cases hsr
  have hnd : (m.getBranch ++ es).Nodup := by
    rw [← hb]
    exact branch_nodup he.wf
  rw [hb] at hx
  have hold := hx.of_append hnd hr
  have ht : x.id ∉ touched := by
    intro hc
    rw [he.not_silent h hold.mem.2.2 hc] at hs
    cases hs
  rw [he.shown_kept hold.mem.2.2 ht]
  exact hsilent a r x hold ((he.mem_selection hold.mem.1).mp ha) hs

theorem silent_old (h : m.WellFormed) (hsilent : SilentBetween m) :
    ∀ a r x, Between m.getBranch a r x → shown m' a ≠ [] → x.isSilent = true → shown m' x = [] := by
  intro a r x hx ha hs
  obtain ⟨es, hb, -⟩ := he.branch
  refine he.silentBetween h hsilent a r x ?_ (mem_selection_of_shown ha) hs
  obtain ⟨hax, hres, l₁, l₂, l₃, hp, ht, hxl⟩ := hx
  exact ⟨hax, hres, l₁, l₂, l₃ ++ es, by rw [hb, hp]; simp, ht, hxl⟩

/-- The new entries show no result, so only the old ones matter. -/
theorem coherent (h : Coherent m)
    (hanchored : Anchored m.getBranch (shown m')) : Coherent m' := by
  have hsilent := he.silentBetween h.wf h.silent
  obtain ⟨es, hb, hes, -⟩ := he.branch
  refine ⟨he.wf, ?_, hsilent, ?_⟩
  · rw [hb]
    refine h.raw.append fun e hmem r hr => ?_
    rw [List.isEmpty_iff.mp (hes e hmem).1] at hr
    cases hr
  · rw [hb]
    exact hanchored.append fun e hmem =>
      not_toolResult_of_silent (hes e hmem).1

end

end Edited

section

variable {m m' : SessionManager} {touched : List EntryId}

/-- Omitting entries that have the results of their exchanges. -/
theorem Coherent.hide (h : Coherent m) {q : EntryId → Option ResolvedContextChange → Prop}
    (he : Edited m m' touched q)
    (hq : ∀ e ∈ m.getBranch, e.isRawToolResult = true → e.id ∈ touched → ∀ change, q e.id change →
        ∃ curation, change = some (.edit none curation))
    (hclosed : ∀ a r result, Heads m.getBranch a r →
      .toolResult result ∈ shown m r → a.id ∈ touched → r.id ∈ touched) : Coherent m' := by
  refine he.coherent h ?_
  have hresult : ∀ e ∈ m.getBranch, e.id ∈ touched →
      e.isRawToolResult = true → shown m' e = [] := by
    intro e hb ht hr
    obtain ⟨curation, hc⟩ := hq e hb hr ht _ (he.done e.id ht)
    rcases shown_cases m' e with hnil | hproj
    · exact hnil
    · rw [hproj, hc]
      rfl
  refine h.anchored.hide (shows_shown _) (fun e => e.id ∈ touched)
    ?_ ?_ (he.silent_old h.wf h.silent) hclosed
  · exact fun e hb ht => he.shown_kept hb ht
  · intro e hb ht
    refine ⟨?_, hresult e hb ht⟩
    intro r hr
    cases hres : e.isRawToolResult with
    | true =>
      rw [hresult e hb ht hres] at hr
      cases hr
    | false =>
      rcases shown_cases m' e with hnil | hproj
      · rw [hnil] at hr
        cases hr
      · rw [hproj] at hr
        have hbad := project_of_not_raw hres _ _ hr
        cases hbad

/-- Restoring selected entries in which every result has its exchange. -/
theorem Coherent.restore (h : Coherent m) (he : Edited m m' touched (fun _ change => change = none))
    (hsel : ∀ e ∈ m.getBranch, e.id ∈ touched → e ∈ selectContextEntries m.getBranch)
    (hexchange : ∀ r ∈ m.getBranch, r.id ∈ touched →
      r.isRawToolResult = true → ∃ a, a.id ∈ touched ∧ Heads m.getBranch a r)
    (hclosed : ∀ a x, Heads m.getBranch a x → a.id ∈ touched → x.id ∈ touched) : Coherent m' := by
  refine he.coherent h ?_
  refine h.anchored.restore (shows_shown _) (branch_nodup h.wf) h.raw
    (fun e => e ∈ m.getBranch ∧ e.id ∈ touched) ?_ ?_ ?_
    (he.silent_old h.wf h.silent) ?_ ?_
  · intro e hb ht
    exact he.shown_kept hb fun hc => ht ⟨hb, hc⟩
  · intro e hb ht hres r hr
    rcases shown_cases m' e with hnil | hproj
    · rw [hnil] at hr
      cases hr
    · rw [hproj] at hr
      have hbad := project_of_not_raw hres _ _ hr
      cases hbad
  · intro e hb ht hkind
    have hcomp : e.isCompaction = false := by
      rcases hkind with hk | hk
      · exact not_isCompaction_of_isRawToolResult hk
      · exact not_isCompaction_of_isToolExchange hk
    have hmem := (he.mem_selection hb).mpr (hsel e hb ht.2)
    rw [shown, shownIn_of_not_compaction hmem hcomp, he.done e.id ht.2]
    rfl
  · rintro r ⟨hb, ht⟩ hres
    obtain ⟨a, ha, har⟩ := hexchange r hb ht hres
    exact ⟨a, ⟨har.mem.1, ha⟩, har⟩
  · rintro a x hax ⟨-, ha⟩
    exact .inl ⟨hax.mem.2, hclosed a x hax ha⟩

end

section

variable {m : SessionManager}

theorem Coherent.visible_closed (h : Coherent m) {b : PruneBlock}
    (hb : b ∈ groupPruneBlocks (visibleEntries m.buildSessionProjection))
    {a r : SessionEntry} {result : ToolResultMessage}
    (har : Heads m.getBranch a r) (hr : .toolResult result ∈ shown m r)
    (ha : a.id ∈ b.entryIds) : r.id ∈ b.entryIds := by
  have hat := groupPruneBlocks_spec (visibleEntries_nodup h.wf) hb
  obtain ⟨x, hx, hid⟩ := mem_entryIds.mp ha
  have hxv := (hat.mem_entries hx).1
  obtain rfl := branch_inj h.wf (mem_branch_of_visible h.wf hxv) har.mem.1 hid
  have hshown := (mem_visibleEntries h.wf (not_isCompaction_of_isToolExchange har.1)).mp hxv
  have hvis := heads_visible h.wf har hshown (ne_nil_of_mem hr)
  exact mem_entryIds.mpr ⟨r, hat.mem_of_heads (visibleEntries_nodup h.wf) hvis hx, rfl⟩

/-- What an entry that is neither excluded nor summarized shows of a tool
result is a tool result. -/
theorem project_of_result_uncurated {e : SessionEntry}
    (he : e.isRawToolResult = true) {change : Option ResolvedContextChange}
    (hex : contextChangeState change ≠ some .excluded)
    (hsum : contextChangeState change ≠ some .summarized) :
    projectContextEntry e change = [] ∨ ∃ r, .toolResult r ∈ projectContextEntry e change := by
  rcases project_of_result he change with hnil | ⟨r, hr⟩ | ⟨c, hc⟩
  · exact .inl hnil
  · exact .inr ⟨r, by rw [hr]; simp⟩
  · -- only a legacy summary turns a tool result into a custom message
    exfalso
    have hmem : AgentMessage.custom c ∈ projectContextEntry e change := by
      rw [hc]
      simp
    cases change with
    | none =>
      have := isToolResult_of_raw he _ hmem
      cases this
    | some change =>
      cases change with
      | edit replacement curation =>
        cases replacement with
        | none => cases hmem
        | some content =>
          obtain ⟨x, hx, hxc⟩ := List.mem_map.mp hmem
          have hres := isToolResult_of_raw he x hx
          cases x with
          | toolResult t => cases hxc
          | _ => cases hres
      | prune p =>
        unfold projectContextEntry at hmem
        cases hp : p.state with
        | included =>
          simp only [hp] at hmem
          have := isToolResult_of_raw he _ hmem
          cases this
        | excluded => exact hex (by simp [contextChangeState, hp])
        | summarized => exact hsum (by simp [contextChangeState, hp])

theorem Coherent.selectable_head (h : Coherent m) {b : PruneBlock}
    (hb : b ∈ groupPruneBlocks (visibleEntries m.buildSessionProjection))
    (hid : b.id ∈ m.buildContextEntries.map SessionEntry.id) : b.head.isRawToolResult = false := by
  by_contra hc
  rw [Bool.not_eq_false] at hc
  have hat := groupPruneBlocks_spec (visibleEntries_nodup h.wf) hb
  have hcomp := not_isCompaction_of_isRawToolResult hc
  have hv := (hat.mem_entries (e := b.head) (by simp [PruneBlock.entries])).1
  have hshown := (mem_visibleEntries h.wf hcomp).mp hv
  obtain ⟨hex, hsum⟩ := not_curated_of_selectable hid
  obtain ⟨result, hres⟩ : ∃ r, .toolResult r ∈ shown m b.head := by
    rcases shown_cases m b.head with hnil | hproj
    · exact absurd hnil hshown
    · rw [hproj] at hshown ⊢
      exact (project_of_result_uncurated hc hex hsum).resolve_left hshown
  obtain ⟨a, ha⟩ := h.anchored b.head (mem_branch_of_visible h.wf hv) result hres
  obtain ⟨message, hmessage, -⟩ := ha.call
  refine hat.orphan hc a (heads_visible h.wf (ha.heads hc) ?_ hshown)
  rw [hmessage]
  exact cons_ne_nil _ _

end

end ReflectivePi.Curation
