import ReflectivePi.Session.Branch

/-!
# Session — Index

What `_buildIndex` computes, one index at a time: the leaf, the labels
and the latest legacy marker of each target.
-/

namespace ReflectivePi.Session

open List InsertionMap ParentWalk

/-! ## One index at a time -/

/-- What one entry does to the label index. -/
def indexLabel (labels : InsertionMap EntryId String) (e : SessionEntry) :
    InsertionMap EntryId String :=
  match e.kind with
  | .label targetId (some label) =>
    if label = "" then labels.delete targetId else labels.set targetId label
  | .label targetId none => labels.delete targetId
  | _ => labels

/-- What one entry does to the legacy index. -/
def indexLegacy (legacy : InsertionMap EntryId PruneEntry) (e : SessionEntry) :
    InsertionMap EntryId PruneEntry :=
  match e.toPrune? with
  | some p => legacy.set p.targetId p
  | none => legacy

namespace SessionManager

section

variable (m : SessionManager)

include m

theorem indexLabel_labelsById (e : SessionEntry) :
    indexLabel m.labelsById e = (m.indexEntry e).labelsById := by
  unfold indexLabel indexEntry
  cases e.kind with
  | label t l =>
    cases l with
    | none => rfl
    | some l => by_cases hl : l = "" <;> simp [hl]
  | _ => rfl

theorem indexLegacy_legacyPruneChanges (e : SessionEntry) :
    indexLegacy m.legacyPruneChanges e = (m.indexEntry e).legacyPruneChanges := by
  unfold indexLegacy indexEntry SessionEntry.toPrune?
  cases e.kind with
  | label t l =>
    cases l with
    | none => rfl
    | some l => by_cases hl : l = "" <;> simp [hl]
  | _ => rfl

theorem entries_indexEntry (e : SessionEntry) :
    m.entries = (m.indexEntry e).entries := by
  unfold indexEntry
  cases e.kind with
  | label t l =>
    cases l with
    | none => rfl
    | some l => by_cases hl : l = "" <;> simp [hl]
  | _ => rfl

theorem leafId_indexEntry (e : SessionEntry) :
    some e.id = (m.indexEntry e).leafId := by
  unfold indexEntry
  cases e.kind with
  | label t l =>
    cases l with
    | none => rfl
    | some l => by_cases hl : l = "" <;> simp [hl]
  | _ => rfl

@[simp] theorem labelsById_buildIndex :
    m.buildIndex.labelsById = m.entries.foldl indexLabel .empty :=
  (foldl_hom labelsById indexLabel_labelsById).symm

@[simp] theorem legacyPruneChanges_buildIndex :
    m.buildIndex.legacyPruneChanges = m.entries.foldl indexLegacy .empty :=
  (foldl_hom legacyPruneChanges indexLegacy_legacyPruneChanges).symm

@[simp] theorem leafId_buildIndex :
    m.buildIndex.leafId = lastKey SessionEntry.id none m.entries :=
  (foldl_hom leafId leafId_indexEntry).symm

@[simp] theorem entries_buildIndex : m.buildIndex.entries = m.entries := by
  have h : ∀ (l : List SessionEntry) (m : SessionManager),
      (l.foldl indexEntry m).entries = m.entries := by
    intro l
    induction l with
    | nil => intro m; rfl
    | cons e rest ih =>
      intro m
      rw [foldl_cons, ih, ← entries_indexEntry]
  exact h _ _

end

end SessionManager

theorem indexLabel_of_not {e : SessionEntry} (h : e.isLabelOrPrune = false)
    (labels : InsertionMap EntryId String) : indexLabel labels e = labels := by
  unfold SessionEntry.isLabelOrPrune at h
  unfold indexLabel
  cases hk : e.kind <;> simp_all

theorem indexLegacy_of_not {e : SessionEntry} (h : e.isLabelOrPrune = false)
    (legacy : InsertionMap EntryId PruneEntry) : indexLegacy legacy e = legacy := by
  unfold SessionEntry.isLabelOrPrune at h
  unfold indexLegacy SessionEntry.toPrune?
  cases hk : e.kind <;> simp_all

theorem label_ne_empty {l : List SessionEntry} {t : EntryId} {label : String}
    (h : (l.foldl indexLabel .empty).get? t = some label) : label ≠ "" := by
  induction l using List.reverseRecOn with
  | nil => simp at h
  | append_singleton l e ih =>
    rw [foldl_append, foldl_cons, foldl_nil, indexLabel] at h
    split at h
    · rename_i t' label' hk
      by_cases hl : label' = ""
      · rw [if_pos hl, get?_delete] at h
        split at h
        · cases h
        · exact ih h
      · rw [if_neg hl, get?_set] at h
        split at h
        · cases h
          exact hl
        · exact ih h
    · rw [get?_delete] at h
      split at h
      · cases h
      · exact ih h
    · exact ih h

/-- A marker in the legacy index is one of the entries, under its own
target. -/
theorem legacy_marker {l : List SessionEntry} {t : EntryId} {p : PruneEntry}
    (h : (l.foldl indexLegacy .empty).get? t = some p) :
    p.targetId = t ∧ ∃ e ∈ l, e.toPrune? = some p := by
  induction l using List.reverseRecOn with
  | nil => simp at h
  | append_singleton l e ih =>
    rw [foldl_append, foldl_cons, foldl_nil, indexLegacy] at h
    split at h
    · rename_i q hq
      rw [get?_set] at h
      by_cases ht : q.targetId = t
      · rw [if_pos ht] at h
        cases h
        exact ⟨ht, e, by simp, hq⟩
      · rw [if_neg ht] at h
        obtain ⟨hp, x, hx, hxp⟩ := ih h
        exact ⟨hp, x, List.mem_append.mpr (.inl hx), hxp⟩
    · obtain ⟨hp, x, hx, hxp⟩ := ih h
      exact ⟨hp, x, List.mem_append.mpr (.inl hx), hxp⟩

theorem get?_legacyChanges (legacy : InsertionMap EntryId PruneEntry) (t : EntryId) :
    (legacyChanges legacy).get? t = (legacy.get? t).map ResolvedContextChange.prune := by
  have hmap : legacyChanges legacy
      = (legacy.entries.map (fun p => (p.1, ResolvedContextChange.prune p.2))).foldl
          (fun m p => m.set p.1 p.2) .empty := by
    rw [legacyChanges, foldl_map]
  have hnd : ((legacy.entries.map (fun p => (p.1, ResolvedContextChange.prune p.2))).map
        Prod.fst).Nodup := by
    rw [map_map]
    exact legacy.nodup
  rw [hmap, get?_foldl_set hnd, findEntry_map_value, get?_empty, Option.or_none]
  rfl

end ReflectivePi.Session
