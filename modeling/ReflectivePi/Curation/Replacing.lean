import Mathlib.Data.List.Pairwise
import ReflectivePi.Curation.Regroup
import ReflectivePi.Curation.Selection

/-!
# Curation — Replacing

What replacing one visible block by a summary does to the visible blocks:
that block becomes its first entry, every other one stays what it was, and
a block outside the protected suffix leaves the suffix as it is. So the
replacements of one call do not disturb each other.
-/

namespace ReflectivePi.Curation

open List Session ParentWalk

section

variable {m : SessionManager}

theorem ids_entries (h : m.WellFormed) :
    m.buildSessionProjection.entries.map (fun p => p.sourceEntry.id)
      = (selectContextEntries m.getBranch).map SessionEntry.id := by
  have hsources := sourceEntry_projectEntries m.contextChanges (selectContextEntries m.getBranch)
  rw [← entries_buildSessionProjection h] at hsources
  rw [← hsources, map_map]
  rfl

theorem messagesOf_of_mem (h : m.WellFormed) {p : ProjectedSessionEntry}
    (hp : p ∈ m.buildSessionProjection.entries) :
    messagesOf m.buildSessionProjection p.sourceEntry.id = p.messages := by
  have hnd : (m.buildSessionProjection.entries.map (fun p => p.sourceEntry.id)).Nodup := by
    rw [ids_entries h]
    exact selectContextEntries_nodup (SessionManager.getBranch_nodup h)
  have hlookup := lookup_of_mem hnd hp
  rw [messagesOf, hlookup]
  rfl

theorem messagesOf_of_not_mem (h : m.WellFormed) {id : EntryId}
    (hid : id ∉ (selectContextEntries m.getBranch).map SessionEntry.id) :
    messagesOf m.buildSessionProjection id = [] := by
  rw [← ids_entries h] at hid
  rw [messagesOf, lookup_eq_none.mpr hid]
  rfl

theorem mem_entries_of_selected (h : m.WellFormed) {e : SessionEntry}
    (he : e ∈ selectContextEntries m.getBranch) :
    ∃ p ∈ m.buildSessionProjection.entries, p.sourceEntry = e := by
  rw [← sourceEntry_projectEntries m.contextChanges (selectContextEntries m.getBranch),
    ← entries_buildSessionProjection h] at he
  exact List.mem_map.mp he

theorem visibleEntries_eq (h : m.WellFormed) :
    visibleEntries m.buildSessionProjection = (selectContextEntries m.getBranch).filter
          (fun e => !(messagesOf m.buildSessionProjection e.id).isEmpty) := by
  have hsources := sourceEntry_projectEntries m.contextChanges (selectContextEntries m.getBranch)
  rw [← entries_buildSessionProjection h] at hsources
  rw [visibleEntries, ← hsources, filter_map]
  congr 1
  apply filter_congr
  intro p hp
  rw [Function.comp_apply, messagesOf_of_mem h hp]

end

theorem flatMap_entries (l : List SessionEntry) :
    (groupPruneBlocks l).flatMap PruneBlock.entries
      = l.filter (fun e => !e.isSilent) := flatMap_groupFrom none l

variable {l : List SessionEntry}

theorem entryIds_disjoint (hnd : (l.map SessionEntry.id).Nodup) :
    (groupPruneBlocks l).Pairwise
      (fun b c => List.Disjoint b.entryIds c.entryIds) := by
  have hids : ((groupPruneBlocks l).flatMap PruneBlock.entryIds).Nodup := by
    have hmap : (groupPruneBlocks l).flatMap PruneBlock.entryIds
        = ((groupPruneBlocks l).flatMap PruneBlock.entries).map SessionEntry.id := by
      rw [map_flatMap]
      rfl
    rw [hmap, flatMap_entries]
    exact (List.filter_sublist.map _).nodup hnd
  exact (List.nodup_flatMap.mp hids).2

theorem block_unique (hnd : (l.map SessionEntry.id).Nodup) {b c : PruneBlock}
    (hb : b ∈ groupPruneBlocks l) (hc : c ∈ groupPruneBlocks l) {t : EntryId}
    (htb : t ∈ b.entryIds) (htc : t ∈ c.entryIds) : b = c := by
  by_contra hne
  have hsymm : Std.Symm (fun b c : PruneBlock =>
      List.Disjoint b.entryIds c.entryIds) := ⟨fun _ _ h _ hb ha => h ha hb⟩
  exact (entryIds_disjoint hnd).forall hb hc hne htb htc

theorem groups_nodup (hnd : (l.map SessionEntry.id).Nodup) : (groupPruneBlocks l).Nodup := by
  refine (entryIds_disjoint hnd).imp ?_
  rintro b c hdis rfl
  exact hdis (a := b.id) mem_cons_self mem_cons_self

variable {b : PruneBlock}

theorem entryIds_nodup (hnd : (l.map SessionEntry.id).Nodup) (hb : b ∈ groupPruneBlocks l) :
    b.entryIds.Nodup := by
  have hsub : b.entries.Sublist (l.filter (fun e => !e.isSilent)) := by
    rw [← flatMap_entries]
    exact sublist_flatten_of_mem (mem_map_of_mem hb)
  exact ((hsub.trans filter_sublist).map _).nodup hnd

/-- What a replacement leaves in force on the entries of its block. -/
def ReplacedBy (b : PruneBlock) (t : EntryId)
    (change : Option ResolvedContextChange) : Prop :=
  (t = b.id → ∃ content, change = some (.edit (some content) (some .summary))) ∧
  (t ≠ b.id → change = some (.edit none (some .summary)))

section

variable {stamp : SessionManager → Stamp} {m m' : SessionManager}
  {b : PruneBlock}

theorem setBlockSummary_ok (hst : Fresh stamp) (h : m.WellFormed)
    (hedit : ∀ t ∈ b.entryIds, Editable m t) (hnd : b.entryIds.Nodup)
    {summary : String} (hs : summary ≠ "") :
    ∃ m', setBlockSummary stamp m b.entryIds summary = .ok m' ∧
      Edited m m' b.entryIds (ReplacedBy b) := by
  have hcons : b.entryIds = b.id :: b.tail.map SessionEntry.id := rfl
  rw [hcons] at hedit hnd ⊢
  rw [nodup_cons] at hnd
  refine setBlockSummary_edited hst h hedit summary ?_ ?_
  · intro replacement hsome
    obtain ⟨content, rfl⟩ := Option.isSome_iff_exists.mp (hsome.mpr hs)
    exact ⟨fun _ => ⟨content, rfl⟩, fun hne => absurd rfl hne⟩
  · intro t ht
    exact ⟨fun hc => absurd (hc ▸ ht) hnd.1, fun _ => rfl⟩

section

variable {touched : List EntryId}
  {q : EntryId → Option ResolvedContextChange → Prop}

/-- An entry of the projection is still there after an edit, at the same
place, under the change now in force. -/
theorem Edited.entry (he : Edited m m' touched q) (h : m.WellFormed)
    {p : ProjectedSessionEntry} (hp : p ∈ m.buildSessionProjection.entries) :
    ∃ p' ∈ m'.buildSessionProjection.entries, p'.sourceEntry = p.sourceEntry ∧
      (p.sourceEntry.id ∉ touched → p'.messages = p.messages) ∧
      (p'.messages = [] ∨ p'.messages = projectContextEntry p.sourceEntry
        (m'.contextChanges.get? p.sourceEntry.id)) ∧
      (p.messages ≠ [] → p'.messages = projectContextEntry p.sourceEntry
        (m'.contextChanges.get? p.sourceEntry.id)) := by
  obtain ⟨es, -, -, hs⟩ := he.branch
  rw [entries_buildSessionProjection h, projectEntries, mem_mapIdx] at hp
  obtain ⟨i, hi, rfl⟩ := hp
  rw [entries_buildSessionProjection he.wf, hs]
  refine ⟨_, List.mem_mapIdx.mpr ⟨i, by rw [length_append]; omega, rfl⟩, ?_, ?_, ?_, ?_⟩
  · exact getElem_append_left hi
  all_goals simp only [getElem_append_left hi]
  · intro ht
    rw [he.kept _ ht]
  · split
    · exact .inl rfl
    · exact .inr rfl
  · intro hne
    split
    · rename_i hc
      rw [if_pos hc] at hne
      exact absurd rfl hne
    · rfl

/-- **An edit leaves what the others show as it is.** -/
theorem Edited.messagesOf_kept (he : Edited m m' touched q) (h : m.WellFormed)
    {id : EntryId} (ht : id ∉ touched) :
    messagesOf m'.buildSessionProjection id = messagesOf m.buildSessionProjection id := by
  by_cases hid : id ∈ (selectContextEntries m.getBranch).map SessionEntry.id
  · obtain ⟨e, hsel, rfl⟩ := List.mem_map.mp hid
    obtain ⟨p, hp, rfl⟩ := mem_entries_of_selected h hsel
    obtain ⟨p', hp', hsource, hkept, -⟩ := he.entry h hp
    rw [messagesOf_of_mem h hp, ← hsource, messagesOf_of_mem he.wf hp', hkept ht]
  · rw [messagesOf_of_not_mem h hid]
    by_cases hid' : id ∈ (selectContextEntries m'.getBranch).map SessionEntry.id
    · -- an entry of the edit itself contributes nothing
      obtain ⟨e, hsel, rfl⟩ := List.mem_map.mp hid'
      obtain ⟨es, -, hes, hs⟩ := he.branch
      have hnew : e ∈ es := by
        rw [hs] at hsel
        exact (List.mem_append.mp hsel).resolve_left
          fun hc => hid (mem_map_of_mem hc)
      obtain ⟨hsilent, hcomp, hfresh⟩ := hes e hnew
      obtain ⟨p, hp, rfl⟩ := mem_entries_of_selected he.wf hsel
      rw [messagesOf_of_mem he.wf hp, messages_of_mem_entries he.wf hp hcomp,
        shown, shownIn_of_not_compaction hsel hcomp, he.kept _ ht,
        SessionManager.contextChanges_get?_fresh h hfresh]
      exact List.isEmpty_iff.mp hsilent
    · exact messagesOf_of_not_mem he.wf hid'

end

/-! ## The visible blocks after a replacement -/

/-- A visible block, before its contributions are looked up. -/
abbrev visibleGroups (m : SessionManager) : List PruneBlock :=
  groupPruneBlocks (visibleEntries m.buildSessionProjection)

theorem visible_ids_nodup (h : m.WellFormed) :
    ((visibleEntries m.buildSessionProjection).map SessionEntry.id).Nodup :=
  ((visibleEntries_sublist h).map _).nodup
    (selectContextEntries_nodup (SessionManager.getBranch_nodup h))

/-- What is not the tail of the replaced block. -/
def notTail (b : PruneBlock) (e : SessionEntry) : Bool :=
  decide (e.id ∉ b.tail.map SessionEntry.id)

section

variable (h : m.WellFormed) (hb : b ∈ visibleGroups m)
  (he : Edited m m' b.entryIds (ReplacedBy b))

include h hb he

theorem messagesOf_tail {e : SessionEntry} (ht : e ∈ b.tail) :
    messagesOf m'.buildSessionProjection e.id = [] := by
  have hat := groupPruneBlocks_spec (visibleEntries_nodup h) hb
  have hvis := (hat.mem_entries (e := e) (mem_cons_of_mem _ ht)).1
  obtain ⟨p, hp, rfl⟩ := mem_entries_of_selected h ((visibleEntries_sublist h).subset hvis)
  obtain ⟨p', hp', hsource, -, hproj, -⟩ := he.entry h hp
  rw [← hsource, messagesOf_of_mem he.wf hp']
  rcases hproj with hnil | hproj
  · exact hnil
  · have hids := entryIds_nodup (visible_ids_nodup h) hb
    rw [show b.entryIds = b.id :: b.tail.map SessionEntry.id from rfl, nodup_cons] at hids
    have htm : p.sourceEntry.id ∈ b.tail.map SessionEntry.id := mem_map_of_mem ht
    have hchange := (he.done p.sourceEntry.id
      (mem_cons_of_mem _ htm)).2 (fun hc => hids.1 (hc ▸ htm))
    rw [hproj, hchange]
    rfl

theorem messagesOf_head : messagesOf m'.buildSessionProjection b.id ≠ [] := by
  have hat := groupPruneBlocks_spec (visibleEntries_nodup h) hb
  obtain ⟨hvis, hsilent⟩ := hat.mem_entries (e := b.head) mem_cons_self
  have hshown : messagesOf m.buildSessionProjection b.head.id ≠ [] := by
    rw [visibleEntries_eq h, mem_filter] at hvis
    simpa using hvis.2
  obtain ⟨p, hp, hph⟩ := mem_entries_of_selected h ((visibleEntries_sublist h).subset hvis)
  obtain ⟨p', hp', hsource, -, -, hproj⟩ := he.entry h hp
  rw [← hph, messagesOf_of_mem h hp] at hshown
  obtain ⟨content, hchange⟩ := (he.done b.id mem_cons_self).1 rfl
  have hid : p'.sourceEntry.id = b.id := by
    rw [hsource, hph]
    rfl
  rw [← hid, messagesOf_of_mem he.wf hp', hproj hshown, hph,
    show b.head.id = b.id from rfl, hchange, projectContextEntry]
  intro hnil
  rw [map_eq_nil_iff] at hnil
  rw [SessionEntry.isSilent, hnil] at hsilent
  cases hsilent

theorem visibleEntries_replaced :
    visibleEntries m'.buildSessionProjection
      = (visibleEntries m.buildSessionProjection).filter (notTail b) := by
  obtain ⟨es, -, hes, hs⟩ := he.branch
  have hnew : es.filter (fun e => !(messagesOf m'.buildSessionProjection e.id).isEmpty) = [] := by
    rw [filter_eq_nil_iff]
    intro e hm
    have hfresh := (hes e hm).2.2
    have ht : e.id ∉ b.entryIds := by
      intro hc
      obtain ⟨x, hx, hid, -⟩ := he.targets e.id hc
      exact hfresh (hid ▸ SessionManager.id_mem_of_mem_getBranch hx)
    rw [he.messagesOf_kept h ht, messagesOf_of_not_mem h]
    · simp
    · intro hc
      obtain ⟨x, hx, hid⟩ := List.mem_map.mp hc
      exact hfresh (hid ▸ SessionManager.id_mem_of_mem_getBranch
        (mem_of_mem_selectContextEntries (SessionManager.getBranch_nodup h) hx))
  rw [visibleEntries_eq he.wf, hs, List.filter_append, hnew, append_nil,
    visibleEntries_eq h, filter_filter]
  apply filter_congr
  intro e hsel
  by_cases htail : e.id ∈ b.tail.map SessionEntry.id
  · obtain ⟨x, hx, hid⟩ := List.mem_map.mp htail
    rw [← hid, messagesOf_tail h hb he hx, notTail, hid]
    simp [htail]
  · have hnot : notTail b e = true := by simpa [notTail] using htail
    rw [hnot, Bool.true_and]
    by_cases hhead : e.id = b.id
    · have hvis := ((groupPruneBlocks_spec (visibleEntries_nodup h)
        hb).mem_entries (e := b.head) mem_cons_self).1
      rw [visibleEntries_eq h, mem_filter] at hvis
      have hbefore := hvis.2
      rw [show b.head.id = b.id from rfl] at hbefore
      have hafter := messagesOf_head h hb he
      rw [hhead, hbefore]
      simpa using hafter
    · have ht : e.id ∉ b.entryIds := by
        rw [show b.entryIds = b.id :: b.tail.map SessionEntry.id from rfl, mem_cons, not_or]
        exact ⟨hhead, htail⟩
      rw [he.messagesOf_kept h ht]

theorem contributedBlock_kept {c : PruneBlock} (hc : c ∈ visibleGroups m) (hne : c ≠ b) :
    contributedBlock m'.buildSessionProjection (c.keep (notTail b))
      = contributedBlock m.buildSessionProjection c := by
  have hids := visible_ids_nodup h
  have hout : ∀ e ∈ c.entries, e.id ∉ b.entryIds := by
    intro e hm hc'
    exact hne (block_unique hids hc hb (mem_map_of_mem hm) hc')
  have hmessages : ∀ e ∈ c.entries, messagesOf m'.buildSessionProjection e.id
        = messagesOf m.buildSessionProjection e.id :=
    fun e hm => he.messagesOf_kept h (hout e hm)
  have hwith : ∀ e ∈ c.entries, withProjectedMessage m'.buildSessionProjection e
        = withProjectedMessage m.buildSessionProjection e := by
    intro e hm
    rw [withProjectedMessage, withProjectedMessage, hmessages e hm]
  have hkeep : c.keep (notTail b) = c := by
    have htail : c.tail.filter (notTail b) = c.tail := by
      rw [filter_eq_self]
      intro e hm
      have hnot := hout e (mem_cons_of_mem _ hm)
      rw [show b.entryIds = b.id :: b.tail.map SessionEntry.id from rfl, mem_cons, not_or] at hnot
      simpa [notTail] using hnot.2
    rw [PruneBlock.keep, htail]
  rw [hkeep]
  unfold contributedBlock
  congr 1
  · exact hwith c.head mem_cons_self
  · exact map_congr_left fun e hm =>
      hwith e (mem_cons_of_mem _ hm)
  · congr 1
    apply flatMap_congr
    intro t ht
    obtain ⟨e, hm, rfl⟩ := List.mem_map.mp ht
    exact hmessages e hm

theorem visibleGroups_replaced :
    visibleGroups m' = (visibleGroups m).map (PruneBlock.keep (notTail b)) := by
  rw [visibleGroups, visibleEntries_replaced h hb he]
  refine groupPruneBlocks_keep fun c hc => ?_
  -- no block opens with an entry of another block's tail
  have hids := visible_ids_nodup h
  have hnot : c.head.id ∉ b.tail.map SessionEntry.id := by
    intro hm
    have hcb := block_unique hids hc hb (t := c.head.id) mem_cons_self (mem_cons_of_mem _ hm)
    have hnd := entryIds_nodup hids hb
    rw [show b.entryIds = b.id :: b.tail.map SessionEntry.id from rfl, nodup_cons] at hnd
    rw [hcb] at hm
    exact hnd.1 hm
  simpa [notTail] using hnot

end

end

/-! ## The protected suffix -/

theorem protectFrom_unreached {rest : List PruneBlock} {blocks tokens : Nat}
    {l : List PruneBlock} (hb : b.id ∉ protectFrom blocks tokens (l ++ b :: rest))
    (rest' : List PruneBlock) :
    protectFrom blocks tokens (l ++ rest') = protectFrom blocks tokens (l ++ b :: rest) := by
  induction l generalizing blocks tokens with
  | nil =>
    exfalso
    apply hb
    simp [protectFrom]
  | cons x l ih =>
    simp only [cons_append, protectFrom] at hb ⊢
    split
    · rfl
    · rename_i hc
      rw [if_neg hc, mem_cons, not_or] at hb
      rw [ih hb.2]

/-- All visible blocks with their contributions, newest last. -/
def visibleBlocks (m : SessionManager) : List PruneBlock :=
  (visibleGroups m).map (contributedBlock m.buildSessionProjection)

/-- A block of the protected recent suffix. -/
def InRecentSuffix (m : SessionManager) (b : PruneBlock) : Prop :=
  b.id ∈ getProtectedRecentBlockIds (visibleBlocks m)

theorem mem_protectedIds {m : SessionManager} (hb : b ∈ (getContextBlockInventory m).blocks) :
    b.id ∈ (getContextBlockInventory m).protectedIds ↔ InRecentSuffix m b := by
  constructor
  · intro hid
    obtain ⟨c, hc, hcb⟩ := List.mem_map.mp hid
    have hprotected := of_decide_eq_true (List.mem_filter.mp hc).2
    rw [hcb] at hprotected
    exact hprotected
  · intro hp
    exact List.mem_map.mpr ⟨b, List.mem_filter.mpr ⟨hb, decide_eq_true hp⟩, rfl⟩

theorem mem_visibleBlocks {m : SessionManager}
    (hb : b ∈ (getContextBlockInventory m).blocks) : b ∈ visibleBlocks m :=
  (List.mem_filter.mp hb).1

/-- **One replacement leaves the other blocks as they were**, and out of
the recent suffix when both were out of it. -/
theorem replace_spec {stamp : SessionManager → Stamp} (hst : Fresh stamp)
    {m : SessionManager} (h : m.WellFormed) (hb : b ∈ visibleBlocks m)
    (hout : ¬ InRecentSuffix m b) {summary : String} (hs : summary ≠ "") :
    ∃ m', setBlockSummary stamp m b.entryIds summary = .ok m' ∧ m'.WellFormed ∧
      (∀ id, id ∉ b.entryIds → messagesOf m'.buildSessionProjection id
        = messagesOf m.buildSessionProjection id) ∧
      ∀ c ∈ visibleBlocks m, c.id ≠ b.id → ¬ InRecentSuffix m c →
        c ∈ visibleBlocks m' ∧ ¬ InRecentSuffix m' c := by
  obtain ⟨b₀, hb₀, rfl⟩ := List.mem_map.mp hb
  rw [entryIds_contributedBlock]
  obtain ⟨m', hm', he⟩ := setBlockSummary_ok hst h
    (editable_of_visible h hb₀) (entryIds_nodup (visible_ids_nodup h) hb₀) hs
  refine ⟨m', hm', he.wf, fun id hid => he.messagesOf_kept h hid, ?_⟩
  have hblocks : visibleBlocks m' = (visibleGroups m).map
      (fun c => contributedBlock m'.buildSessionProjection (c.keep (notTail b₀))) := by
    rw [visibleBlocks, visibleGroups_replaced h hb₀ he, map_map]
    rfl
  obtain ⟨l₁, l₂, hl⟩ := append_of_mem hb₀
  have hrest : l₂.map (fun c => contributedBlock m'.buildSessionProjection (c.keep (notTail b₀)))
      = l₂.map (contributedBlock m.buildSessionProjection) := by
    apply map_congr_left
    intro c hc
    refine contributedBlock_kept h hb₀ he (by rw [hl]; simp [hc]) ?_
    rintro rfl
    have hnd : (visibleGroups m).Nodup := groups_nodup (visible_ids_nodup h)
    rw [hl] at hnd
    exact (List.nodup_cons.mp (List.nodup_append.mp hnd).2.1).1 hc
  -- the walk stops among the newer blocks, which are what they were
  have hsuffix : getProtectedRecentBlockIds (visibleBlocks m')
      = getProtectedRecentBlockIds (visibleBlocks m) := by
    unfold InRecentSuffix at hout
    unfold getProtectedRecentBlockIds at hout ⊢
    rw [visibleBlocks, hl, map_append, map_cons, reverse_append,
      reverse_cons, append_assoc, singleton_append] at hout
    rw [hblocks, visibleBlocks, hl, map_append, map_cons,
      reverse_append, reverse_cons, hrest, append_assoc,
      map_append, map_cons, reverse_append, reverse_cons,
      append_assoc, singleton_append, singleton_append]
    exact protectFrom_unreached hout _
  intro c hc hne hcout
  refine ⟨?_, ?_⟩
  · obtain ⟨c₀, hc₀, rfl⟩ := List.mem_map.mp hc
    rw [hblocks]
    refine List.mem_map.mpr ⟨c₀, hc₀, contributedBlock_kept h hb₀ he hc₀ ?_⟩
    rintro rfl
    exact hne rfl
  · rw [InRecentSuffix, hsuffix]
    exact hcout

end ReflectivePi.Curation
