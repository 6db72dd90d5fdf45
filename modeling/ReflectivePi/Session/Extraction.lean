import ReflectivePi.Session.Retain

/-!
# Session — Extraction

An extracted session is a sound one and shows the model what the path
showed: the indexes written after the path answer for every retained
target as the old ones did, and the projection of the new chain is the
projection of the old path.
-/

namespace ReflectivePi.Session

open List InsertionMap ParentWalk

variable {e : SessionEntry}

theorem labelEntries_inert (generateId : List EntryId → EntryId) {used : List EntryId}
    {parentId : Option EntryId} {ls : List LabelToWrite}
    (he : e ∈ labelEntries generateId used parentId ls) :
    e.isLabelOrPrune = true ∧ e.toPrune? = none := by
  induction ls generalizing used parentId with
  | nil => cases he
  | cons l rest ih =>
    rcases List.mem_cons.mp he with rfl | he
    · exact ⟨rfl, rfl⟩
    · exact ih he

theorem labelEntries_chained (generateId : List EntryId → EntryId)
    (used : List EntryId) (parentId : Option EntryId) (ls : List LabelToWrite) :
    Chained SessionEntry.id SessionEntry.parentId parentId
      (labelEntries generateId used parentId ls) := by
  induction ls generalizing used parentId with
  | nil => exact trivial
  | cons l rest ih => exact ⟨rfl, ih _ _⟩

theorem labelEntries_fresh {generateId : List EntryId → EntryId}
    (hgen : ∀ used, generateId used ∉ used) (used : List EntryId)
    (parentId : Option EntryId) (ls : List LabelToWrite) :
    ((labelEntries generateId used parentId ls).map SessionEntry.id).Nodup ∧
      ∀ e ∈ labelEntries generateId used parentId ls, e.id ∉ used := by
  induction ls generalizing used parentId with
  | nil => simp [labelEntries]
  | cons l rest ih =>
    obtain ⟨hnd, hfresh⟩ := ih (used ++ [generateId used]) (some (generateId used))
    rw [labelEntries]
    constructor
    · rw [map_cons, nodup_cons]
      refine ⟨?_, hnd⟩
      intro hc
      obtain ⟨e, he, hid⟩ := List.mem_map.mp hc
      apply hfresh e he
      rw [hid]
      simp
    · intro e he
      rcases List.mem_cons.mp he with rfl | he
      · exact hgen used
      · exact fun hc => hfresh e he (List.mem_append.mpr (.inl hc))

theorem foldl_indexLabel_labelEntries (generateId : List EntryId → EntryId)
    (used : List EntryId) (parentId : Option EntryId) {ls : List LabelToWrite}
    (hne : ∀ l ∈ ls, l.label ≠ "") (init : InsertionMap EntryId String) :
    (labelEntries generateId used parentId ls).foldl indexLabel init
      = (ls.map (fun l => (l.targetId, l.label))).foldl
          (fun m p => m.set p.1 p.2) init := by
  induction ls generalizing used parentId init with
  | nil => rfl
  | cons l rest ih =>
    rw [labelEntries, foldl_cons, ih _ _ (fun x hx => hne x (mem_cons_of_mem _ hx)), map_cons,
      foldl_cons]
    simp [indexLabel, hne l (by simp)]

/-! ## The prune entries -/

/-- A marker without its place in the tree. -/
def PruneEntry.unlinked (p : PruneEntry) : PruneEntry :=
  { p with parentId := none }

theorem pruneEntries_inert {parentId : Option EntryId} {ps : List PruneEntry}
    (he : e ∈ pruneEntries parentId ps) : e.isLabelOrPrune = true := by
  induction ps generalizing parentId with
  | nil => cases he
  | cons p rest ih =>
    rcases List.mem_cons.mp he with rfl | he
    · rfl
    · exact ih he

theorem pruneEntries_ids (parentId : Option EntryId) (ps : List PruneEntry) :
    (pruneEntries parentId ps).map SessionEntry.id = ps.map PruneEntry.id := by
  induction ps generalizing parentId with
  | nil => rfl
  | cons p rest ih => rw [pruneEntries, map_cons, ih]; rfl

theorem pruneEntries_chained (parentId : Option EntryId) (ps : List PruneEntry) :
    Chained SessionEntry.id SessionEntry.parentId parentId
      (pruneEntries parentId ps) := by
  induction ps generalizing parentId with
  | nil => exact trivial
  | cons p rest ih => exact ⟨rfl, ih _⟩

theorem foldl_indexLabel_pruneEntries (parentId : Option EntryId)
    (ps : List PruneEntry) (init : InsertionMap EntryId String) :
    (pruneEntries parentId ps).foldl indexLabel init = init := by
  induction ps generalizing parentId with
  | nil => rfl
  | cons p rest ih => exact ih _

/-- The markers written again are the markers given, under new parents. -/
theorem get?_foldl_pruneEntries {ps : List PruneEntry}
    (hnd : (ps.map PruneEntry.targetId).Nodup) (parentId : Option EntryId)
    (init : InsertionMap EntryId PruneEntry) (t : EntryId) :
    (((pruneEntries parentId ps).foldl indexLegacy init).get? t).map
        PruneEntry.unlinked
      = ((InsertionMap.findEntry t (ps.map (fun p => (p.targetId, p)))).or
          (init.get? t)).map PruneEntry.unlinked := by
  induction ps generalizing parentId init with
  | nil => rfl
  | cons p rest ih =>
    rw [map_cons, nodup_cons] at hnd
    rw [pruneEntries, foldl_cons, ih hnd.2]
    have hstep : indexLegacy init { p.toEntry with parentId }
        = init.set p.targetId { p with parentId } := rfl
    rw [hstep, get?_set, map_cons]
    by_cases ht : p.targetId = t
    · have hnone : InsertionMap.findEntry t (rest.map (fun p => (p.targetId, p))) = none := by
        rw [findEntry_eq_none, map_map]
        exact ht ▸ hnd.1
      simp [InsertionMap.findEntry, ht, hnone, PruneEntry.unlinked]
    · simp [InsertionMap.findEntry, ht]

/-! ## Changes up to the place of a marker -/

def ResolvedContextChange.unlinked : ResolvedContextChange → ResolvedContextChange
  | .edit replacement curation => .edit replacement curation
  | .prune p => .prune p.unlinked

/-- Two change maps that agree on one entry, up to where its marker sits. -/
def SameChange (ch₁ ch₂ : ContextChanges) (t : EntryId) : Prop :=
  (ch₁.get? t).map ResolvedContextChange.unlinked = (ch₂.get? t).map ResolvedContextChange.unlinked

variable {ch₁ ch₂ : ContextChanges}

variable {t : EntryId} {path : List SessionEntry}

theorem SameChange.foldl (h : SameChange ch₁ ch₂ t) (path : List SessionEntry) :
    SameChange (path.foldl applyContextChange ch₁)
      (path.foldl applyContextChange ch₂) t := by
  induction path generalizing ch₁ ch₂ with
  | nil => exact h
  | cons e rest ih =>
    apply ih
    unfold SameChange at h ⊢
    unfold applyContextChange
    cases e.kind with
    | contextEdit targetId replacement curation =>
      by_cases ht : targetId = t <;> simp [ht, h]
    | contextEditCancel targetId =>
      by_cases ht : targetId = t <;> simp [ht, h]
    | _ => exact h

/-- A reading of a change that ignores the marker's place agrees on both
maps. -/
theorem SameChange.read (h : SameChange ch₁ ch₂ t) {β : Type} (f : Option ResolvedContextChange → β)
    (hf : ∀ c, f (some (ResolvedContextChange.unlinked c)) = f (some c)) :
    f (ch₁.get? t) = f (ch₂.get? t) := by
  have hmap : ∀ c : Option ResolvedContextChange,
      f (c.map ResolvedContextChange.unlinked) = f c := by
    intro c
    cases c with
    | none => rfl
    | some c => exact hf c
  rw [← hmap (ch₁.get? t), h, hmap]

theorem SameChange.projectContextEntry (h : SameChange ch₁ ch₂ e.id) :
    projectContextEntry e (ch₁.get? e.id) = projectContextEntry e (ch₂.get? e.id) :=
  h.read (Session.projectContextEntry e) fun c => by cases c <;> rfl

theorem SameChange.contribution (h : SameChange ch₁ ch₂ e.id) :
    contribution ch₁ e = contribution ch₂ e := by
  simp only [Session.contribution, h.projectContextEntry]

/-- A marker in force was in force from the start: edits on the path only
replace or cancel. -/
theorem prune_of_foldl {ch : ContextChanges} {p : PruneEntry}
    (h : (path.foldl applyContextChange ch).get? t = some (.prune p)) :
    ch.get? t = some (.prune p) := by
  induction path generalizing ch with
  | nil => exact h
  | cons e rest ih =>
    have hstep := ih h
    unfold applyContextChange at hstep
    cases hk : e.kind with
    | contextEdit targetId replacement curation =>
      by_cases ht : targetId = t <;> simp_all
    | contextEditCancel targetId =>
      by_cases ht : targetId = t <;> simp_all
    | _ => rw [hk] at hstep; exact hstep

theorem flatMap_contribution_congr {l₁ l₂ : List SessionEntry}
    (h : l₁.map SessionEntry.unchained = l₂.map SessionEntry.unchained)
    (hsame : ∀ e ∈ l₂, SameChange ch₁ ch₂ e.id) :
    l₁.flatMap (contribution ch₁) = l₂.flatMap (contribution ch₂) := by
  have hun : ∀ l : List SessionEntry, l.flatMap (contribution ch₁)
      = (l.map SessionEntry.unchained).flatMap (contribution ch₁) := by
    intro l
    rw [flatMap_map]
    simp only [contribution_unchained]
  rw [hun l₁, h, ← hun l₂]
  exact flatMap_congr fun e he => (hsame e he).contribution

/-- The retained path up to a compaction: the moved boundary is the one
`keptEntries_retained` is about. -/
theorem retainPath_compaction (pre : List SessionEntry) {c : CompactionEntry}
    (hk : e.kind = .compaction c) :
    ∃ e' c', (retainPath (pre ++ [e])).pathWithoutLabelsAndPrunes
        = (retainPath pre).pathWithoutLabelsAndPrunes ++ [e'] ∧
      e'.kind = .compaction c' ∧ e'.unchained = e.unchained ∧
      c'.firstKeptEntryId = replaceDropped
        (retainPath (pre ++ [e])).replacementByDroppedId
          c.firstKeptEntryId := by
  have he : e.isLabelOrPrune = false := by
    simp [SessionEntry.isLabelOrPrune, hk]
  have hstep : retainPath (pre ++ [e]) = (retainPath pre).step e := by
    rw [retainPath, foldl_append]
    rfl
  refine ⟨rechain (retainPath (pre ++ [e])).replacementByDroppedId (retainPath pre).pathParentId e,
    { c with
      firstKeptEntryId := replaceDropped (retainPath (pre ++ [e])).replacementByDroppedId
          c.firstKeptEntryId }, ?_, ?_, unchained_rechain _ _ _, rfl⟩
  · rw [hstep, RetainState.step, he]
    rfl
  · simp only [rechain, hk]

theorem retained_no_compaction {l : List SessionEntry} {kept : List SessionEntry}
    (h : kept.map SessionEntry.unchained
      = (retainedEntries l).map SessionEntry.unchained) (hl : ∀ x ∈ l, x.isCompaction = false) :
    ∀ x ∈ kept, x.isCompaction = false := by
  intro x hx
  have hmem := h ▸ mem_map_of_mem hx
  obtain ⟨y, hy, hyx⟩ := List.mem_map.mp hmem
  rw [← SessionEntry.isCompaction_unchained, ← hyx, SessionEntry.isCompaction_unchained]
  exact hl y (List.mem_filter.mp hy).1

/-- **Cutting out labels and markers cuts out what they showed.** The
projection of the re-chained path, with inert entries after it, is the
projection of the path without its label and prune entries. -/
theorem messages_retainPath {tail : List SessionEntry} (hnd : (path.map SessionEntry.id).Nodup)
    (hnew : (((retainPath path).pathWithoutLabelsAndPrunes ++ tail).map
      SessionEntry.id).Nodup) (htail : ∀ e ∈ tail, e.isLabelOrPrune = true)
    (hshow : ∀ e ∈ tail, contribution ch₁ e = [])
    (hsame : ∀ e ∈ retainedEntries path, SameChange ch₁ ch₂ e.id) :
    (projectEntries ch₁ (selectContextEntries
        ((retainPath path).pathWithoutLabelsAndPrunes ++ tail))).flatMap
          ProjectedSessionEntry.messages
      = ((projectEntries ch₂ (selectContextEntries path)).filter
          (fun e => !e.sourceEntry.isLabelOrPrune)).flatMap
            ProjectedSessionEntry.messages := by
  have hquiet : tail.flatMap (contribution ch₁) = [] := List.flatMap_eq_nil_iff.mpr hshow
  have htcomp : ∀ e ∈ tail, e.isCompaction = false :=
    fun e he => isCompaction_of_inert (htail e he)
  rcases selectContextEntries_cases hnd with
    ⟨-, hs, hnone⟩ | ⟨e, c, pre, post, -, hk, hp, hpost, hs⟩
  · have hcomp : ∀ x ∈ (retainPath path).pathWithoutLabelsAndPrunes ++ tail,
        x.isCompaction = false := by
      intro x hx
      rcases List.mem_append.mp hx with hx | hx
      · exact retained_no_compaction (retainPath_unchained path) hnone x hx
      · exact htcomp x hx
    rw [selectContextEntries_of_none hcomp, projectEntries_eq_tail _ hcomp, hs,
      projectEntries_eq_tail _ hnone,
      filter_projectTail (fun e => !e.isLabelOrPrune), messages_projectTail,
      messages_projectTail, flatMap_append, hquiet, append_nil]
    exact flatMap_contribution_congr (retainPath_unchained path) hsame
  · obtain ⟨e', c', hpre, hk', hu, hfirst⟩ := retainPath_compaction pre hk
    obtain ⟨kpost, hkpost, hupost⟩ := retained_foldl post (retainPath (pre ++ [e]))
    have hcut : path = (pre ++ [e]) ++ post := by rw [hp]; simp
    have hret : (retainPath path).pathWithoutLabelsAndPrunes
        = (retainPath pre).pathWithoutLabelsAndPrunes ++ e' :: kpost := by
      rw [hcut, retainPath, foldl_append]
      rw [← retainPath, hkpost, hpre, append_assoc, singleton_append]
    have hnde : ((pre ++ [e]).map SessionEntry.id).Nodup := by
      rw [hcut, map_append] at hnd
      exact (List.nodup_append.mp hnd).1
    have he : e.isLabelOrPrune = false := by
      simp [SessionEntry.isLabelOrPrune, hk]
    have hcomp : ∀ x ∈ kpost ++ tail, x.isCompaction = false := by
      intro x hx
      rcases List.mem_append.mp hx with hx | hx
      · exact retained_no_compaction hupost hpost x hx
      · exact htcomp x hx
    -- the range the moved boundary keeps is the old one, retained
    have hkept : (keptEntries c'.firstKeptEntryId false
          (retainPath pre).pathWithoutLabelsAndPrunes).map SessionEntry.unchained
        = (retainedEntries (keptEntries c.firstKeptEntryId false pre)).map
            SessionEntry.unchained := by
      rw [keptEntries_map_unchained, retainPath_unchained,
        ← keptEntries_map_unchained, hfirst, keptEntries_retained hnde he]
    have hrest : (keptEntries c'.firstKeptEntryId false
          (retainPath pre).pathWithoutLabelsAndPrunes ++ kpost).map SessionEntry.unchained
        = (retainedEntries (keptEntries c.firstKeptEntryId false pre
            ++ post)).map SessionEntry.unchained := by
      rw [map_append, hkept, hupost, ← map_append, ← retainedEntries_append]
    have hsel : ∀ x ∈ retainedEntries (selectContextEntries path), SameChange ch₁ ch₂ x.id := by
      intro x hx
      obtain ⟨hx, hxd⟩ := List.mem_filter.mp hx
      exact hsame x (List.mem_filter.mpr
        ⟨mem_of_mem_selectContextEntries hnd hx, hxd⟩)
    have hcons : retainedEntries (selectContextEntries path)
        = e :: retainedEntries (keptEntries c.firstKeptEntryId false pre ++ post) := by
      rw [hs, retainedEntries, filter_cons_of_pos (by simp [he])]
      rfl
    rw [hcons] at hsel
    have hid : e'.id = e.id := by
      rw [← SessionEntry.unchained_id, hu, SessionEntry.unchained_id]
    have hhead : projectContextEntry e' (ch₁.get? e'.id)
        = projectContextEntry e (ch₂.get? e.id) := by
      rw [← projectContextEntry_unchained, hu, projectContextEntry_unchained, hid]
      exact (hsel e mem_cons_self).projectContextEntry
    rw [hret, append_assoc, cons_append] at hnew ⊢
    rw [selectContextEntries_of_split hk' hcomp hnew, hs, projectEntries_cons,
      projectEntries_cons, filter_cons_of_pos (by simp [he]),
      filter_projectTail (fun e => !e.isLabelOrPrune), flatMap_cons,
      flatMap_cons, messages_projectTail, messages_projectTail, hhead,
      ← append_assoc, flatMap_append, hquiet, append_nil, flatMap_contribution_congr hrest
        (fun x hx => hsel x (mem_cons_of_mem _ hx))]
    rfl

/-! ## The extracted entries -/

theorem retainPath_not_inert
    (he : e ∈ (retainPath path).pathWithoutLabelsAndPrunes) : e.isLabelOrPrune = false := by
  have hmem : e.unchained ∈ (retainedEntries path).map SessionEntry.unchained :=
    retainPath_unchained path ▸ mem_map_of_mem he
  obtain ⟨x, hx, hxe⟩ := List.mem_map.mp hmem
  have hxd := (List.mem_filter.mp hx).2
  rw [← SessionEntry.isLabelOrPrune_unchained, ← hxe, SessionEntry.isLabelOrPrune_unchained]
  simpa using hxd

theorem foldl_eq_self {σ : Type} {f : σ → SessionEntry → σ}
    {l : List SessionEntry} (hf : ∀ e ∈ l, ∀ s, f s e = s) (s : σ) : l.foldl f s = s := by
  induction l with
  | nil => rfl
  | cons e rest ih =>
    rw [foldl_cons, hf e (by simp)]
    exact ih fun x hx => hf x (mem_cons_of_mem _ hx)

namespace SessionManager

/-- What is written after the retained path. -/
def extractedTail (m : SessionManager) (generateId : List EntryId → EntryId)
    (path : List SessionEntry) : List SessionEntry :=
  let retained := (retainPath path).pathWithoutLabelsAndPrunes
  let pathEntryIds := retained.map SessionEntry.id
  let prunes := m.prunesToWrite pathEntryIds
  let labels := labelEntries generateId (pathEntryIds ++ prunes.map PruneEntry.id)
    (lastKey SessionEntry.id none retained) (m.labelsToWrite pathEntryIds)
  labels ++ pruneEntries (lastKey SessionEntry.id none (retained ++ labels)) prunes

section

variable (m : SessionManager) (generateId : List EntryId → EntryId)
  (path : List SessionEntry)

theorem extractedEntries_eq :
    m.extractedEntries generateId path = (retainPath path).pathWithoutLabelsAndPrunes
        ++ m.extractedTail generateId path := by
  simp only [extractedEntries, extractedTail, append_assoc]

theorem extractedTail_inert
    (he : e ∈ m.extractedTail generateId path) : e.isLabelOrPrune = true := by
  rcases List.mem_append.mp he with he | he
  · exact (labelEntries_inert generateId he).1
  · exact pruneEntries_inert he

theorem extractedEntries_chained :
    Chained SessionEntry.id SessionEntry.parentId none
      (m.extractedEntries generateId path) := by
  rw [extractedEntries, chained_append, chained_append]
  exact ⟨⟨(retainPath_chained path).1, labelEntries_chained _ _ _ _⟩, pruneEntries_chained _ _⟩

end

/-! ## What the new indexes answer -/

variable {m : SessionManager}

section

variable (h : m.Indexed)

include h

theorem Indexed.label_ne_empty {t : EntryId} {label : String}
    (ht : m.labelsById.get? t = some label) : label ≠ "" := by
  rw [h.labels, labelsById_buildIndex] at ht
  exact Session.label_ne_empty ht

theorem Indexed.legacy_marker {x : EntryId × PruneEntry}
    (hx : x ∈ m.legacyPruneChanges.entries) :
    x.2.targetId = x.1 ∧ ∃ e ∈ m.entries, e.toPrune? = some x.2 := by
  have hget := InsertionMap.mem_entries_iff.mp (show (x.1, x.2) ∈ _ from hx)
  rw [h.legacy, legacyPruneChanges_buildIndex] at hget
  exact Session.legacy_marker hget

theorem prunesToWrite_bindings (ids : List EntryId) :
    (m.prunesToWrite ids).map (fun p => (p.targetId, p)) = m.legacyPruneChanges.entries.filter
          (fun p => decide (p.1 ∈ ids)) := by
  have hgen : ∀ l : List (EntryId × PruneEntry), (∀ x ∈ l, x.2.targetId = x.1) →
      ((l.map Prod.snd).filter (fun p => decide (p.targetId ∈ ids))).map (fun p => (p.targetId, p))
        = l.filter (fun p => decide (p.1 ∈ ids)) := by
    intro l
    induction l with
    | nil => intro _; rfl
    | cons x rest ih =>
      intro hl
      obtain ⟨k, p⟩ := x
      obtain rfl : p.targetId = k := hl (k, p) (by simp)
      have hrest := ih fun y hy => hl y (mem_cons_of_mem _ hy)
      by_cases hp : p.targetId ∈ ids <;> simpa [hp] using hrest
  exact hgen _ fun x hx => (h.legacy_marker hx).1

theorem prunesToWrite_targets_nodup (ids : List EntryId) :
    ((m.prunesToWrite ids).map PruneEntry.targetId).Nodup := by
  have hb := congrArg (List.map Prod.fst) (m.prunesToWrite_bindings h ids)
  rw [map_map] at hb
  have hfst : (m.prunesToWrite ids).map PruneEntry.targetId = (m.legacyPruneChanges.entries.filter
          (fun p => decide (p.1 ∈ ids))).map Prod.fst := hb
  rw [hfst]
  exact (List.filter_sublist.map Prod.fst).nodup m.legacyPruneChanges.nodup

theorem labels_extractedEntries (generateId : List EntryId → EntryId)
    (path : List SessionEntry) (t : EntryId) :
    ((m.extractedEntries generateId path).foldl indexLabel .empty).get? t
      = if t ∈ (retainedEntries path).map SessionEntry.id then
          m.labelsById.get? t
        else none := by
  have hret : ∀ s, (retainPath path).pathWithoutLabelsAndPrunes.foldl indexLabel
      s = s := foldl_eq_self fun e he s =>
        indexLabel_of_not (retainPath_not_inert he) s
  simp only [extractedEntries, foldl_append, hret, foldl_indexLabel_pruneEntries, retainPath_ids]
  generalize (retainedEntries path).map SessionEntry.id = ids
  have hmap : (m.labelsToWrite ids).map (fun l => (l.targetId, l.label))
      = m.labelsById.entries.filter (fun p => decide (p.1 ∈ ids)) := by
    simp [labelsToWrite, map_map, Function.comp_def]
  have hne : ∀ l ∈ m.labelsToWrite ids, l.label ≠ "" := by
    intro l hl
    obtain ⟨x, hx, rfl⟩ := List.mem_map.mp hl
    exact h.label_ne_empty (InsertionMap.mem_entries_iff.mp (List.mem_filter.mp hx).1)
  rw [foldl_indexLabel_labelEntries _ _ _ hne, hmap, get?_foldl_set
      ((List.filter_sublist.map Prod.fst).nodup m.labelsById.nodup),
    findEntry_filter_key (fun k => decide (k ∈ ids)), get?_empty, Option.or_none]
  by_cases ht : t ∈ ids <;> simp [ht, InsertionMap.get?]

theorem legacy_extractedEntries (generateId : List EntryId → EntryId)
    (path : List SessionEntry) (t : EntryId) :
    (((m.extractedEntries generateId path).foldl indexLegacy .empty).get? t).map
        PruneEntry.unlinked
      = if t ∈ (retainedEntries path).map SessionEntry.id then
          (m.legacyPruneChanges.get? t).map PruneEntry.unlinked
        else none := by
  have hret : ∀ s, (retainPath path).pathWithoutLabelsAndPrunes.foldl
      indexLegacy s = s := foldl_eq_self fun e he s =>
        indexLegacy_of_not (retainPath_not_inert he) s
  have hlab : ∀ used parentId ls s, (labelEntries generateId used parentId
      ls).foldl indexLegacy s = s := fun used parentId ls =>
    foldl_eq_self fun e he s => by
      simp [indexLegacy, (labelEntries_inert generateId he).2]
  simp only [extractedEntries, foldl_append, hret, hlab, retainPath_ids]
  generalize (retainedEntries path).map SessionEntry.id = ids
  rw [get?_foldl_pruneEntries (m.prunesToWrite_targets_nodup h ids), m.prunesToWrite_bindings h,
    findEntry_filter_key (fun k => decide (k ∈ ids)), get?_empty, Option.or_none]
  by_cases ht : t ∈ ids <;> simp [ht, InsertionMap.get?]

theorem prunesToWrite_entries {ids : List EntryId} {p : PruneEntry}
    (hp : p ∈ m.prunesToWrite ids) : ∃ e ∈ m.entries, e.toPrune? = some p := by
  obtain ⟨x, hx, rfl⟩ := List.mem_map.mp (List.mem_filter.mp hp).1
  exact (h.legacy_marker hx).2

end

theorem toPrune?_id {p : PruneEntry}
    (h : e.toPrune? = some p) : p.id = e.id ∧ e.isLabelOrPrune = true := by
  unfold SessionEntry.toPrune? at h
  unfold SessionEntry.isLabelOrPrune
  cases hk : e.kind <;> simp_all
  rw [← h]

theorem prunesToWrite_ids_nodup (hnd : m.ids.Nodup) (h : m.Indexed) (ids : List EntryId) :
    ((m.prunesToWrite ids).map PruneEntry.id).Nodup := by
  refine List.Nodup.map_on ?_ (m.prunesToWrite_targets_nodup h ids).of_map
  intro p hp q hq hpq
  obtain ⟨e, he, hep⟩ := prunesToWrite_entries h hp
  obtain ⟨f, hf, hfq⟩ := prunesToWrite_entries h hq
  have hef : e = f := inj_on_of_nodup_map hnd he hf (by
    rw [← (toPrune?_id hep).1, hpq, (toPrune?_id hfq).1])
  rw [hef, hfq, Option.some.injEq] at hep
  exact hep.symm

theorem extractedEntries_nodup (hnd : m.ids.Nodup) (h : m.Indexed)
    {generateId : List EntryId → EntryId} (hgen : ∀ used, generateId used ∉ used)
    {path : List SessionEntry} (hsub : ∀ e ∈ path, e ∈ m.entries)
    (hpath : (path.map SessionEntry.id).Nodup) :
    ((m.extractedEntries generateId path).map SessionEntry.id).Nodup := by
  have hret : ((retainedEntries path).map SessionEntry.id).Nodup :=
    (List.filter_sublist.map SessionEntry.id).nodup hpath
  have hprune := m.prunesToWrite_ids_nodup hnd h ((retainedEntries path).map SessionEntry.id)
  simp only [extractedEntries, map_append, pruneEntries_ids, retainPath_ids]
  generalize hids : (retainedEntries path).map SessionEntry.id = ids at *
  generalize hps : m.prunesToWrite ids = prunes at *
  obtain ⟨hlnd, hlfresh⟩ := labelEntries_fresh hgen (ids ++ prunes.map PruneEntry.id)
    (lastKey SessionEntry.id none
      (retainPath path).pathWithoutLabelsAndPrunes) (m.labelsToWrite ids)
  rw [nodup_append, nodup_append]
  refine ⟨⟨hret, hlnd, ?_⟩, hprune, ?_⟩
  · rintro a ha b hb rfl
    obtain ⟨e, he, rfl⟩ := List.mem_map.mp hb
    exact hlfresh e he (List.mem_append.mpr (.inl ha))
  · rintro a ha b hb rfl
    obtain ⟨p, hp, rfl⟩ := List.mem_map.mp hb
    rcases List.mem_append.mp ha with ha | ha
    · -- a retained entry is not a marker
      obtain ⟨x, hx, hxp⟩ := List.mem_map.mp (hids ▸ ha)
      obtain ⟨e, he, hep⟩ := prunesToWrite_entries h (hps ▸ hp)
      have hxe : x = e := inj_on_of_nodup_map hnd (hsub x (List.mem_filter.mp hx).1) he (by
          rw [hxp, (toPrune?_id hep).1])
      have hxd := (List.mem_filter.mp hx).2
      rw [hxe, (toPrune?_id hep).2] at hxd
      cases hxd
    · obtain ⟨e, he, heq⟩ := List.mem_map.mp ha
      apply hlfresh e he
      rw [heq]
      exact List.mem_append.mpr (.inr hb)

/-! ## The extracted session -/

section

variable {m : SessionManager} (h : m.Indexed)
  (generateId : List EntryId → EntryId) (newSessionId : String)
  (path : List SessionEntry)

/-- The manager `createBranchedSession` leaves for a path. -/
def extracted (m : SessionManager) (generateId : List EntryId → EntryId)
    (newSessionId : String) (path : List SessionEntry) : SessionManager :=
  buildIndex { m with
      sessionId := newSessionId
      entries := m.extractedEntries generateId path }

theorem entries_extracted :
    (m.extracted generateId newSessionId path).entries
      = m.extractedEntries generateId path := entries_buildIndex _

theorem leafId_extracted :
    (m.extracted generateId newSessionId path).leafId
      = lastKey SessionEntry.id none (m.extractedEntries generateId path) :=
  leafId_buildIndex _

theorem foldl_extractedEntries {σ : Type} {f : σ → SessionEntry → σ}
    (hun : ∀ s e, f s e.unchained = f s e)
    (hinert : ∀ s e, e.isLabelOrPrune = true → f s e = s) (s : σ) :
    (m.extractedEntries generateId path).foldl f s = path.foldl f s := by
  rw [extractedEntries_eq, foldl_append, foldl_eq_self
    (fun e he s => hinert s e (m.extractedTail_inert generateId path he)),
    ← foldl_map_unchained hun, retainPath_unchained, foldl_map_unchained hun,
    foldl_retainedEntries hinert]

include h in
theorem legacyChanges_extracted {t : EntryId}
    (ht : t ∈ (retainedEntries path).map SessionEntry.id) :
    SameChange (legacyChanges (m.extracted generateId newSessionId path).legacyPruneChanges)
      (legacyChanges m.legacyPruneChanges) t := by
  have hleg := legacy_extractedEntries h generateId path t
  rw [if_pos ht] at hleg
  have hmap : ∀ p : Option PruneEntry,
      (p.map ResolvedContextChange.prune).map ResolvedContextChange.unlinked
        = (p.map PruneEntry.unlinked).map ResolvedContextChange.prune := by
    intro p
    cases p <;> rfl
  rw [SameChange, get?_legacyChanges, get?_legacyChanges, hmap, hmap, ← hleg,
    extracted, legacyPruneChanges_buildIndex]

include h in
theorem legacyChanges_extracted_none {t : EntryId}
    (ht : t ∉ (retainedEntries path).map SessionEntry.id) :
    (legacyChanges
      (m.extracted generateId newSessionId path).legacyPruneChanges).get? t = none := by
  have hleg := legacy_extractedEntries h generateId path t
  rw [if_neg ht, Option.map_eq_none_iff] at hleg
  rw [get?_legacyChanges, extracted, legacyPruneChanges_buildIndex, hleg]
  rfl

end

theorem getBranch_extracted (hnd : m.ids.Nodup) (h : m.Indexed)
    {generateId : List EntryId → EntryId} (hgen : ∀ used, generateId used ∉ used)
    (newSessionId : String) {path : List SessionEntry} (hsub : ∀ e ∈ path, e ∈ m.entries)
    (hpath : (path.map SessionEntry.id).Nodup) :
    (m.extracted generateId newSessionId path).getBranch = m.extractedEntries generateId path := by
  rw [getBranch, entries_extracted, leafId_extracted, branchPath]
  exact ancestry_of_chained
    (extractedEntries_nodup hnd h hgen hsub hpath)
    (m.extractedEntries_chained generateId path)

/-- **Extraction preserves the model context.** The extracted session is
one unbroken chain of distinct ids; it shows what the path showed, label
and prune entries apart; every retained target keeps its prune state, its
prune summary and its label. -/
theorem createBranchedSession_preserves {m : SessionManager} (hnd : m.ids.Nodup)
    (hac : Acyclic SessionEntry.id SessionEntry.parentId m.entries)
    (h : m.Indexed) {generateId : List EntryId → EntryId}
    (hgen : ∀ used, generateId used ∉ used) (newSessionId : String)
    {leafId : EntryId} (hleaf : leafId ∈ m.ids) :
    ∃ m', m.createBranchedSession generateId newSessionId leafId = .ok m' ∧ m'.ids.Nodup ∧
      Chained SessionEntry.id SessionEntry.parentId none m'.entries ∧
      m'.leafId = lastKey SessionEntry.id none m'.entries ∧
      m'.buildSessionProjection.settings = (m.branch leafId).buildSessionProjection.settings ∧
      m'.buildSessionProjection.messages = ((m.branch leafId).buildSessionProjection.entries.filter
            (fun e => !e.sourceEntry.isLabelOrPrune)).flatMap
              ProjectedSessionEntry.messages ∧
      ∀ t ∈ (retainedEntries (m.branch leafId).getBranch).map SessionEntry.id,
        m'.getPruneState t = (m.branch leafId).getPruneState t ∧
        m'.getPruneSummary t = (m.branch leafId).getPruneSummary t ∧
        m'.getLabel t = (m.branch leafId).getLabel t := by
  have hbranch : (m.branch leafId).getBranch = branchPath m.entries (some leafId) := rfl
  rw [hbranch]
  generalize hp : branchPath m.entries (some leafId) = path at *
  have hsub : ∀ e ∈ path, e ∈ m.entries := fun e he => ancestry_mem (hp ▸ he)
  have hpnd : (path.map SessionEntry.id).Nodup := hp ▸ ancestry_nodup hac _
  have hne : path ≠ [] := by
    intro hc
    cases hlk : lookup SessionEntry.id m.entries leafId with
    | none => exact lookup_eq_none.mp hlk hleaf
    | some e =>
      have hlast : (branchPath m.entries (some leafId)).getLast? = some e := ancestry_getLast? hlk
      rw [hp, hc] at hlast
      cases hlast
  have hcreate : m.createBranchedSession generateId newSessionId leafId
      = .ok (m.extracted generateId newSessionId path) := by
    rw [createBranchedSession, hp, if_neg (by simpa using hne)]
    rfl
  have hnew := extractedEntries_nodup hnd h hgen hsub hpnd
  have hnb := getBranch_extracted hnd h hgen newSessionId hsub hpnd
  have hleaf' : ∀ id ∈ (m.extracted generateId newSessionId path).leafId,
      id ∈ (m.extracted generateId newSessionId path).ids := by
    intro id hid
    rw [leafId_extracted] at hid
    rw [ids, entries_extracted]
    rcases lastKey_mem hid with hc | hc
    · cases hc
    · exact hc
  have hchanges : (m.extracted generateId newSessionId path).contextChanges
      = path.foldl applyContextChange (legacyChanges
          (m.extracted generateId newSessionId path).legacyPruneChanges) := by
    rw [contextChanges, resolveContextChanges, hnb]
    exact foldl_extractedEntries generateId path applyContextChange_unchained
      (fun s e he => applyContextChange_of_inert he s) _
  have hold : (m.branch leafId).contextChanges
      = path.foldl applyContextChange (legacyChanges m.legacyPruneChanges) := by
    rw [contextChanges, hbranch]
    rfl
  have hsame : ∀ t ∈ (retainedEntries path).map SessionEntry.id,
      SameChange (m.extracted generateId newSessionId path).contextChanges
        (m.branch leafId).contextChanges t := by
    intro t ht
    rw [hchanges, hold]
    exact (legacyChanges_extracted h generateId newSessionId path ht).foldl path
  refine ⟨_, hcreate, ?_, ?_, ?_, ?_, ?_, ?_⟩
  · rwa [ids, entries_extracted]
  · rw [entries_extracted]
    exact m.extractedEntries_chained generateId path
  · rw [leafId_extracted, entries_extracted]
  · rw [buildSessionProjection_eq hleaf', hnb, buildSessionProjection_eq
      (m := m.branch leafId) (fun id hid => (Option.some.inj hid) ▸ hleaf), hbranch]
    exact foldl_extractedEntries generateId path settingsStep_unchained
      (fun s e he => settingsStep_of_inert he s) _
  · rw [buildSessionProjection_eq hleaf', hnb, extractedEntries_eq, buildSessionProjection_eq
        (m := m.branch leafId) (fun id hid => (Option.some.inj hid) ▸ hleaf), hbranch]
    rw [extractedEntries_eq] at hnew
    refine messages_retainPath hpnd hnew (fun e he => m.extractedTail_inert generateId path he) ?_
      (fun e he => hsame e.id (mem_map_of_mem he))
    intro e he
    refine contribution_of_inert (m.extractedTail_inert generateId path he) ?_
    intro p hget
    -- the new baseline has markers for retained ids only
    have hmarker := prune_of_foldl hget
    rw [legacyChanges_extracted_none h generateId newSessionId path ?_] at hmarker
    · cases hmarker
    · rw [← retainPath_ids]
      rw [map_append, nodup_append] at hnew
      exact fun hc => hnew.2.2 _ hc _ (mem_map_of_mem he) rfl
  · intro t ht
    have hs := hsame t ht
    refine ⟨hs.read contextChangeState fun c => ?_, hs.read contextChangeSummary fun c => ?_, ?_⟩
    · cases c <;> rfl
    · cases c <;> rfl
    · have hlab := labels_extractedEntries h generateId path t
      rw [if_pos ht] at hlab
      rw [getLabel, extracted, labelsById_buildIndex]
      exact hlab

/-- A legacy marker summarizes a label entry, which then shows its text. -/
def labelSession : SessionManager :=
  .load true "sample" [ .userText (.lit "u1") none "hello",
      ⟨.lit "l1", some (.lit "u1"), 2, .label (.lit "u1") (some "start")⟩,
      ⟨.lit "p1", some (.lit "l1"), 3, .prune (.lit "l1") .summarized (some "note")⟩,
      .userText (.lit "u2") (some (.lit "p1")) "again" ]

theorem labelSession_ordered :
    ordered SessionEntry.id SessionEntry.parentId [] labelSession.entries = true := by decide

theorem labelSession_indexed : labelSession.Indexed := ⟨rfl, rfl, rfl⟩

/-- Cutting out the label loses the message the marker put there. -/
theorem labelSession_loses_message :
    labelSession.ids.Nodup ∧
    Acyclic SessionEntry.id SessionEntry.parentId labelSession.entries ∧
    labelSession.Indexed ∧ (.lit "u2") ∈ labelSession.ids ∧
    ∀ m', labelSession.createBranchedSession longerId "new" (.lit "u2") = .ok m' →
      m'.buildSessionProjection.messages
        ≠ (labelSession.branch (.lit "u2")).buildSessionProjection.messages := by
  refine ⟨(ordered_nil labelSession_ordered).1,
    (ordered_nil labelSession_ordered).2.1, labelSession_indexed, by decide, ?_⟩
  intro m' hm' hc
  have hlen := congrArg List.length hc
  have hold : (labelSession.branch
      (.lit "u2")).buildSessionProjection.messages.length = 3 := by decide
  have hok : (labelSession.createBranchedSession longerId "new" (.lit "u2")).toOption.map
        (fun m => m.buildSessionProjection.messages.length) = some 2 := by
    decide
  rw [hm'] at hok
  have hnew : m'.buildSessionProjection.messages.length = 2 := Option.some.inj hok
  omega

theorem createBranchedSession_preserves_sample :
    ∃ m', labelSession.createBranchedSession longerId "new" (.lit "u2") = .ok m' ∧ m'.ids.Nodup ∧
      Chained SessionEntry.id SessionEntry.parentId none m'.entries ∧
      m'.leafId = lastKey SessionEntry.id none m'.entries ∧
      m'.buildSessionProjection.settings
        = (labelSession.branch (.lit "u2")).buildSessionProjection.settings ∧
      m'.buildSessionProjection.messages = ((labelSession.branch
              (.lit "u2")).buildSessionProjection.entries.filter
            (fun e => !e.sourceEntry.isLabelOrPrune)).flatMap
              ProjectedSessionEntry.messages ∧
      ∀ t ∈ (retainedEntries (labelSession.branch
          (.lit "u2")).getBranch).map SessionEntry.id, m'.getPruneState t
          = (labelSession.branch (.lit "u2")).getPruneState t ∧
        m'.getPruneSummary t = (labelSession.branch (.lit "u2")).getPruneSummary t ∧
        m'.getLabel t = (labelSession.branch (.lit "u2")).getLabel t :=
  createBranchedSession_preserves (ordered_nil labelSession_ordered).1
    (ordered_nil labelSession_ordered).2.1 labelSession_indexed longerId_fresh
    "new" (by decide)

end SessionManager

end ReflectivePi.Session
