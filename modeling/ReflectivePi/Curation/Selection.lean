import ReflectivePi.Curation.Batch

/-!
# Curation — Selection

The visible blocks a tool can select from, read through what each entry
shows, and what the selection loop makes of the requested ids.
-/

namespace ReflectivePi.Curation

open List Session ParentWalk

/-! ## Visible entries -/

theorem mem_projectEntries {changes : ContextChanges} {l : List SessionEntry}
    {p : ProjectedSessionEntry} (hp : p ∈ projectEntries changes l)
    (hc : p.sourceEntry.isCompaction = false) :
    p.messages = contribution changes p.sourceEntry := by
  cases l with
  | nil => simp [projectEntries] at hp
  | cons e rest =>
    rw [projectEntries_cons] at hp
    rcases List.mem_cons.mp hp with rfl | hp
    · rw [contribution, hc]
      rfl
    · obtain ⟨x, -, rfl⟩ := List.mem_map.mp hp
      rfl

section

variable {m : SessionManager}

section

variable (h : m.WellFormed)

include h

theorem entries_buildSessionProjection :
    m.buildSessionProjection.entries
      = projectEntries m.contextChanges (selectContextEntries m.getBranch) := by
  rw [SessionManager.buildSessionProjection_eq h.leaf, projectPath]

theorem messages_of_mem_entries {p : ProjectedSessionEntry}
    (hp : p ∈ m.buildSessionProjection.entries) (hc : p.sourceEntry.isCompaction = false) :
    p.messages = shown m p.sourceEntry := by
  rw [entries_buildSessionProjection h] at hp
  have hmem : p.sourceEntry ∈ selectContextEntries m.getBranch := by
    rw [← sourceEntry_projectEntries m.contextChanges (selectContextEntries m.getBranch)]
    exact mem_map_of_mem hp
  rw [mem_projectEntries hp hc, shown, shownIn, if_pos hmem]

theorem visibleEntries_sublist :
    (visibleEntries m.buildSessionProjection).Sublist
      (selectContextEntries m.getBranch) := by
  have hsources : m.buildSessionProjection.entries.map ProjectedSessionEntry.sourceEntry
      = selectContextEntries m.getBranch := by
    rw [entries_buildSessionProjection h, sourceEntry_projectEntries]
  rw [← hsources]
  exact List.filter_sublist.map _

/-- Apart from compactions, the visible entries are those that show
something. -/
theorem mem_visibleEntries {e : SessionEntry} (hc : e.isCompaction = false) :
    e ∈ visibleEntries m.buildSessionProjection ↔ shown m e ≠ [] := by
  unfold visibleEntries
  constructor
  · intro he
    obtain ⟨p, hp, rfl⟩ := List.mem_map.mp he
    obtain ⟨hp, hvis⟩ := List.mem_filter.mp hp
    rw [← messages_of_mem_entries h hp hc]
    simpa using hvis
  · intro hs
    have hsel : e ∈ selectContextEntries m.getBranch := by
      by_contra hn
      rw [shown, shownIn, if_neg hn] at hs
      exact hs rfl
    rw [← sourceEntry_projectEntries m.contextChanges (selectContextEntries m.getBranch),
      ← entries_buildSessionProjection h] at hsel
    obtain ⟨p, hp, rfl⟩ := List.mem_map.mp hsel
    refine mem_map_of_mem (List.mem_filter.mpr ⟨hp, ?_⟩)
    rw [messages_of_mem_entries h hp hc]
    simpa using hs

theorem selection_nodup : (selectContextEntries m.getBranch).Nodup :=
  (selectContextEntries_nodup (SessionManager.getBranch_nodup h)).of_map

theorem visibleEntries_nodup : (visibleEntries m.buildSessionProjection).Nodup :=
  (visibleEntries_sublist h).nodup (selection_nodup h)

theorem mem_branch_of_visible {e : SessionEntry}
    (he : e ∈ visibleEntries m.buildSessionProjection) : e ∈ m.getBranch :=
  mem_of_mem_selectContextEntries (SessionManager.getBranch_nodup h)
    ((visibleEntries_sublist h).subset he)

theorem heads_visible {a r : SessionEntry}
    (har : Heads m.getBranch a r) (ha : shown m a ≠ []) (hr : shown m r ≠ []) :
    Heads (visibleEntries m.buildSessionProjection) a r := by
  have hids := SessionManager.getBranch_nodup h
  have hav := (mem_visibleEntries h (not_isCompaction_of_isToolExchange har.1)).mpr ha
  have hrv := (mem_visibleEntries h (not_isCompaction_of_isRawToolResult har.2.1)).mpr hr
  have hsub := visibleEntries_sublist h
  have hsel := (selectionShape hids).heads hids.of_map har (hsub.subset hav) (hsub.subset hrv)
  rw [sublist_eq_filter hsub (selection_nodup h)]
  exact hsel.filter (by simpa using hav) (by simpa using hrv)

theorem editable_of_visible {b : PruneBlock}
    (hb : b ∈ groupPruneBlocks (visibleEntries m.buildSessionProjection)) :
    ∀ t ∈ b.entryIds, Editable m t := by
  intro t ht
  obtain ⟨e, he, rfl⟩ := mem_entryIds.mp ht
  obtain ⟨hm, hs⟩ := (groupPruneBlocks_spec (visibleEntries_nodup h) hb).mem_entries he
  exact ⟨e, mem_branch_of_visible h hm, rfl, hs⟩

end

@[simp] theorem id_withProjectedMessage (projection : SessionProjection)
    (e : SessionEntry) : (withProjectedMessage projection e).id = e.id := by
  unfold withProjectedMessage
  split <;> rfl

@[simp] theorem entryIds_contributedBlock (projection : SessionProjection)
    (b : PruneBlock) : (contributedBlock projection b).entryIds = b.entryIds := by
  simp [PruneBlock.entryIds, PruneBlock.entries, contributedBlock, Function.comp_def]

@[simp] theorem id_contributedBlock (projection : SessionProjection)
    (b : PruneBlock) : (contributedBlock projection b).id = b.id := by
  simp [PruneBlock.id, contributedBlock]

/-- Where a selectable block comes from: a block of the visible entries
whose first entry is not curated away. -/
theorem mem_inventory {b : PruneBlock} (hb : b ∈ (getContextBlockInventory m).blocks) :
    ∃ b₀ ∈ groupPruneBlocks (visibleEntries m.buildSessionProjection),
      b = contributedBlock m.buildSessionProjection b₀ ∧
      b₀.id ∈ m.buildContextEntries.map SessionEntry.id := by
  obtain ⟨hb, hsel⟩ := List.mem_filter.mp hb
  obtain ⟨b₀, hb₀, rfl⟩ := List.mem_map.mp hb
  exact ⟨b₀, hb₀, rfl, by simpa using hsel⟩

/-- The first entry of a selectable block is neither excluded nor
summarized. -/
theorem not_curated_of_selectable {e : SessionEntry}
    (hid : e.id ∈ m.buildContextEntries.map SessionEntry.id) :
    m.getPruneState e.id ≠ some .excluded ∧ m.getPruneState e.id ≠ some .summarized := by
  obtain ⟨x, hx, hxe⟩ := List.mem_map.mp hid
  unfold SessionManager.buildContextEntries at hx
  obtain ⟨-, hstate⟩ := List.mem_filter.mp hx
  rw [hxe] at hstate
  unfold SessionManager.getPruneState
  constructor <;>
    · intro hc
      rw [hc] at hstate
      cases hstate

end

/-- What the loop has made of the ids it has read: each, trimmed, once,
in one of three lists. -/
structure Sorted (inventory : ContextBlockInventory) (ids : List String)
    (s : SelectState) : Prop where
  eligible : ∀ b ∈ s.eligible, b ∈ inventory.blocks ∧ b.id ∉ inventory.protectedIds
  protectedBlocks : ∀ b ∈ s.protectedBlocks, b ∈ inventory.blocks ∧ b.id ∈ inventory.protectedIds
  unknown : ∀ id ∈ s.unknown, ∀ b ∈ inventory.blocks, b.id.val ≠ id
  seen : ∀ id, id ∈ s.seen ↔ id ≠ "" ∧ id ∈ ids.map trim
  nodup : s.seen.Nodup
  reported : ((s.eligible ++ s.protectedBlocks).map (fun b => b.id.val) ++ s.unknown).Perm s.seen

theorem Sorted.nil (inventory : ContextBlockInventory) : Sorted inventory [] ⟨[], [], [], []⟩ :=
  ⟨by simp, by simp, by simp, by simp, .nil, .nil⟩

theorem Sorted.step {inventory : ContextBlockInventory} {ids : List String}
    {s : SelectState} (h : Sorted inventory ids s) (rawId : String) :
    Sorted inventory (ids ++ [rawId]) (s.step inventory rawId) := by
  unfold SelectState.step
  simp only
  split
  · rename_i hskip
    refine ⟨h.eligible, h.protectedBlocks, h.unknown, ?_, h.nodup, h.reported⟩
    intro id
    rw [h.seen, map_append, mem_append, map_singleton, mem_singleton]
    constructor
    · exact fun hid => ⟨hid.1, .inl hid.2⟩
    · rintro ⟨hne, hid | rfl⟩
      · exact ⟨hne, hid⟩
      · exact (h.seen _).mp (hskip.resolve_left hne)
  · rename_i hnew
    rw [not_or] at hnew
    have hseen : ∀ id, id ∈ s.seen ++ [trim rawId] ↔ id ≠ "" ∧ id ∈ (ids ++ [rawId]).map trim := by
      intro id
      rw [mem_append, h.seen, map_append, mem_append, map_singleton, mem_singleton]
      constructor
      · rintro (⟨hne, hid⟩ | rfl)
        · exact ⟨hne, .inl hid⟩
        · exact ⟨hnew.1, .inr rfl⟩
      · rintro ⟨hne, hid | hid⟩
        · exact .inl ⟨hne, hid⟩
        · exact .inr hid
    have hnodup : (s.seen ++ [trim rawId]).Nodup := List.nodup_append.mpr ⟨h.nodup, by simp, by
        rintro a ha b hb rfl
        exact hnew.2 (List.mem_singleton.mp hb ▸ ha)⟩
    have hperm := List.perm_iff_count.mp h.reported
    cases hb : blockById inventory.blocks (trim rawId) with
    | none =>
      refine ⟨h.eligible, h.protectedBlocks, ?_, hseen, hnodup, ?_⟩
      · intro id hid
        rcases List.mem_append.mp hid with hid | hid
        · exact h.unknown id hid
        · rw [List.mem_singleton.mp hid]
          have hnone := lookup_eq_none.mp hb
          intro b hbm hc
          exact hnone (hc ▸ mem_map_of_mem hbm)
      · rw [← append_assoc]
        exact h.reported.append_right [trim rawId]
    | some b =>
      obtain ⟨hbm, hid⟩ := lookup_mem hb
      simp only
      split
      · rename_i hp
        refine ⟨h.eligible, ?_, h.unknown, hseen, hnodup, ?_⟩
        · intro c hc
          rcases List.mem_append.mp hc with hc | hc
          · exact h.protectedBlocks c hc
          · rw [List.mem_singleton.mp hc]
            exact ⟨hbm, hp⟩
        · rw [perm_iff_count]
          intro x
          have hx := hperm x
          simp only [map_append, count_append, map_singleton, hid] at hx ⊢
          omega
      · rename_i hp
        refine ⟨?_, h.protectedBlocks, h.unknown, hseen, hnodup, ?_⟩
        · intro c hc
          rcases List.mem_append.mp hc with hc | hc
          · exact h.eligible c hc
          · rw [List.mem_singleton.mp hc]
            exact ⟨hbm, hp⟩
        · rw [perm_iff_count]
          intro x
          have hx := hperm x
          simp only [map_append, count_append, map_singleton, hid] at hx ⊢
          omega

theorem sorted_foldl (inventory : ContextBlockInventory) (ids : List String) :
    Sorted inventory ids
      (ids.foldl (SelectState.step inventory) ⟨[], [], [], []⟩) := by
  induction ids using List.reverseRecOn with
  | nil => exact .nil inventory
  | append_singleton ids rawId ih =>
    rw [foldl_append]
    exact ih.step rawId

end ReflectivePi.Curation
