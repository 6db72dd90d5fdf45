import ReflectivePi.Session.Extract

/-!
# Session — Retain

What the loop over the path retains. Re-chaining changes an entry's
parent and a compaction's boundary and nothing else; `unchained` forgets
these two, and every function the projection is made of is the same on an
entry and on its unchained form. The boundary is what needs an argument:
`RetainState.Tracks` says where the loop's replacements point.
-/

namespace ReflectivePi.Session

open List ParentWalk

/-! ## Entries up to re-chaining -/

/-- An entry without its parent and its compaction boundary. -/
def SessionEntry.unchained (e : SessionEntry) : SessionEntry :=
  { e with
    parentId := none
    kind := match e.kind with
      | .compaction c => .compaction { c with firstKeptEntryId := e.id }
      | kind => kind }

namespace SessionEntry

@[simp] theorem unchained_id (e : SessionEntry) : e.unchained.id = e.id := rfl

@[simp] theorem isRawSystem_unchained (e : SessionEntry) :
    e.unchained.isRawSystem = e.isRawSystem := by
  unfold unchained isRawSystem
  cases e.kind <;> rfl

@[simp] theorem isCompaction_unchained (e : SessionEntry) :
    e.unchained.isCompaction = e.isCompaction := by
  unfold unchained isCompaction
  cases e.kind <;> rfl

@[simp] theorem isLabelOrPrune_unchained (e : SessionEntry) :
    e.unchained.isLabelOrPrune = e.isLabelOrPrune := by
  unfold unchained isLabelOrPrune
  cases e.kind <;> rfl

end SessionEntry

section

variable (repl : InsertionMap EntryId EntryId) (parentId : Option EntryId) (e : SessionEntry)

include repl parentId e

@[simp] theorem rechain_id :
    (rechain repl parentId e).id = e.id := rfl

@[simp] theorem rechain_parentId :
    (rechain repl parentId e).parentId = parentId := rfl

@[simp] theorem unchained_rechain :
    (rechain repl parentId e).unchained = e.unchained := by
  unfold rechain SessionEntry.unchained
  cases e.kind <;> rfl

end

theorem projectContextEntry_unchained (e : SessionEntry) (change : Option ResolvedContextChange) :
    projectContextEntry e.unchained change = projectContextEntry e change := by
  have hraw : sessionEntryToContextMessages e.unchained = sessionEntryToContextMessages e := by
    unfold sessionEntryToContextMessages SessionEntry.unchained
    cases e.kind <;> rfl
  have hrep : ∀ content curation, replaceMessageContent e.unchained content
      curation = replaceMessageContent e content curation := by
    intro content curation
    funext message
    unfold replaceMessageContent SessionEntry.unchained
    cases message <;> cases e.kind <;> rfl
  unfold projectContextEntry
  rw [hraw]
  cases change with
  | none => rfl
  | some change =>
    cases change with
    | edit replacement curation =>
      cases replacement with
      | none => rfl
      | some content => simp only [hrep]
    | prune p =>
      unfold SessionEntry.unchained
      cases e.kind with
      | compaction c =>
        obtain ⟨_, _, _, _, _, systemMessage⟩ := c
        cases systemMessage <;> rfl
      | _ => rfl

theorem contribution_unchained (changes : ContextChanges) (e : SessionEntry) :
    contribution changes e.unchained = contribution changes e := by
  simp only [contribution, SessionEntry.isCompaction_unchained,
    SessionEntry.unchained_id, projectContextEntry_unchained]

theorem applyContextChange_unchained (changes : ContextChanges) (e : SessionEntry) :
    applyContextChange changes e.unchained = applyContextChange changes e := by
  unfold applyContextChange SessionEntry.unchained
  cases e.kind <;> rfl

theorem settingsStep_unchained (s : ContextSettings) (e : SessionEntry) :
    s.step e.unchained = s.step e := by
  unfold ContextSettings.step SessionEntry.unchained
  cases e.kind <;> rfl

theorem keptEntries_map_unchained (first : EntryId) (l : List SessionEntry) (found : Bool) :
    (keptEntries first found l).map SessionEntry.unchained
      = keptEntries first found (l.map SessionEntry.unchained) := by
  induction l generalizing found with
  | nil => rfl
  | cons e rest ih =>
    rw [map_cons]
    unfold keptEntries
    rw [SessionEntry.isRawSystem_unchained]
    show _ = if (found || decide (e.id = first)) && !e.isRawSystem then
        e.unchained :: keptEntries first (found || decide (e.id = first)) _
      else keptEntries first (found || decide (e.id = first)) _
    simp only
    split
    · rw [map_cons, ih]
    · exact ih _

/-! ## Label and prune entries are inert -/

variable {e : SessionEntry}

theorem applyContextChange_of_inert (h : e.isLabelOrPrune = true) (changes : ContextChanges) :
    applyContextChange changes e = changes := by
  unfold SessionEntry.isLabelOrPrune at h
  unfold applyContextChange
  cases hk : e.kind <;> simp_all

theorem settingsStep_of_inert (h : e.isLabelOrPrune = true) (s : ContextSettings) :
    s.step e = s := by
  unfold SessionEntry.isLabelOrPrune at h
  unfold ContextSettings.step
  cases hk : e.kind <;> simp_all

theorem isCompaction_of_inert (h : e.isLabelOrPrune = true) : e.isCompaction = false := by
  unfold SessionEntry.isLabelOrPrune at h
  unfold SessionEntry.isCompaction
  cases hk : e.kind <;> simp_all

/-- A label or prune entry shows something only under a legacy marker. -/
theorem contribution_of_inert {changes : ContextChanges} (h : e.isLabelOrPrune = true)
    (hprune : ∀ p, changes.get? e.id ≠ some (.prune p)) : contribution changes e = [] := by
  have hraw : sessionEntryToContextMessages e = [] := by
    unfold SessionEntry.isLabelOrPrune at h
    unfold sessionEntryToContextMessages
    cases hk : e.kind <;> simp_all
  rw [contribution, isCompaction_of_inert h]
  unfold projectContextEntry
  rw [hraw]
  cases hc : changes.get? e.id with
  | none => rfl
  | some change =>
    cases change with
    | prune p => exact absurd hc (hprune p)
    | edit replacement curation => cases replacement <;> rfl

/-- The entries of a path that extraction retains. -/
def retainedEntries (path : List SessionEntry) : List SessionEntry :=
  path.filter (fun e => !e.isLabelOrPrune)

@[simp] theorem retainedEntries_append (a b : List SessionEntry) :
    retainedEntries (a ++ b) = retainedEntries a ++ retainedEntries b :=
  List.filter_append ..

theorem foldl_retainedEntries {σ : Type} {f : σ → SessionEntry → σ}
    (hf : ∀ s e, e.isLabelOrPrune = true → f s e = s) (path : List SessionEntry) (s : σ) :
    (retainedEntries path).foldl f s = path.foldl f s := by
  induction path generalizing s with
  | nil => rfl
  | cons e rest ih =>
    cases he : e.isLabelOrPrune with
    | true =>
      rw [foldl_cons, hf s e he, ← ih]
      simp [retainedEntries, he]
    | false => simp [retainedEntries, he] at ih ⊢; exact ih _

theorem foldl_map_unchained {σ : Type} {f : σ → SessionEntry → σ}
    (hf : ∀ s e, f s e.unchained = f s e) (path : List SessionEntry) (s : σ) :
    (path.map SessionEntry.unchained).foldl f s = path.foldl f s := by
  rw [foldl_map]
  simp only [hf]

theorem retained_step (s : RetainState) (e : SessionEntry) :
    ∃ kept, (s.step e).pathWithoutLabelsAndPrunes = s.pathWithoutLabelsAndPrunes ++ kept ∧
      kept.map SessionEntry.unchained = (retainedEntries [e]).map SessionEntry.unchained := by
  unfold RetainState.step
  cases he : e.isLabelOrPrune with
  | true => exact ⟨[], by simp [retainedEntries, he]⟩
  | false => exact ⟨_, rfl, by simp [retainedEntries, he]⟩

theorem retained_foldl (path : List SessionEntry) (s : RetainState) :
    ∃ kept, (path.foldl RetainState.step s).pathWithoutLabelsAndPrunes
        = s.pathWithoutLabelsAndPrunes ++ kept ∧
      kept.map SessionEntry.unchained = (retainedEntries path).map SessionEntry.unchained := by
  induction path generalizing s with
  | nil => exact ⟨[], by simp, rfl⟩
  | cons e rest ih =>
    obtain ⟨k₁, h₁, hu₁⟩ := retained_step s e
    obtain ⟨k₂, h₂, hu₂⟩ := ih (s.step e)
    refine ⟨k₁ ++ k₂, ?_, ?_⟩
    · rw [foldl_cons, h₂, h₁, append_assoc]
    · rw [map_append, hu₁, hu₂, ← map_append, ← retainedEntries_append, singleton_append]

theorem retainPath_unchained (path : List SessionEntry) :
    (retainPath path).pathWithoutLabelsAndPrunes.map SessionEntry.unchained
      = (retainedEntries path).map SessionEntry.unchained := by
  obtain ⟨kept, hk, hu⟩ := retained_foldl path ⟨[], .empty, [], none⟩
  rw [retainPath, hk, nil_append, hu]

theorem retainPath_ids (path : List SessionEntry) :
    (retainPath path).pathWithoutLabelsAndPrunes.map SessionEntry.id
      = (retainedEntries path).map SessionEntry.id := by
  have h := congrArg (List.map SessionEntry.id) (retainPath_unchained path)
  simpa only [map_map, Function.comp_def, SessionEntry.unchained_id] using h

theorem retainPath_chained (path : List SessionEntry) :
    Chained SessionEntry.id SessionEntry.parentId none
        (retainPath path).pathWithoutLabelsAndPrunes ∧
      (retainPath path).pathParentId = lastKey SessionEntry.id none
            (retainPath path).pathWithoutLabelsAndPrunes := by
  induction path using List.reverseRecOn with
  | nil => exact ⟨trivial, rfl⟩
  | append_singleton path e ih =>
    rw [retainPath, foldl_append]
    rw [retainPath] at ih
    generalize path.foldl RetainState.step ⟨[], .empty, [], none⟩ = s at ih
    simp only [foldl_cons, foldl_nil, RetainState.step]
    split
    · exact ih
    · refine ⟨chained_append.mpr ⟨ih.1, ?_, trivial⟩, ?_⟩
      · rw [rechain_parentId, ih.2]
      · simp [lastKey, foldl_append]

/-! ## Where a moved boundary points -/

/-- The entry a boundary named `id` means after the cut: the first
retained one from `id` on. -/
def nextRetained (path : List SessionEntry) (id : EntryId) : Option SessionEntry :=
  (path.dropWhile (fun e => decide (e.id ≠ id))).find? (fun e => !e.isLabelOrPrune)

/-- The loop invariant: a replacement is recorded exactly when a retained
entry has followed, and an id still waiting is pending. -/
def RetainState.Tracks (s : RetainState) (path : List SessionEntry) : Prop :=
  ∀ id, match nextRetained path id with
    | some y => replaceDropped s.replacementByDroppedId id = y.id ∧ id ∉ s.pendingDroppedIds
    | none => s.replacementByDroppedId.get? id = none
        ∧ (id ∈ s.pendingDroppedIds ↔ id ∈ path.map SessionEntry.id)

variable {path : List SessionEntry}

theorem dropWhile_concat_of_mem {id : EntryId} (h : id ∈ path.map SessionEntry.id)
    (e : SessionEntry) :
    (path ++ [e]).dropWhile (fun x => decide (x.id ≠ id))
      = path.dropWhile (fun x => decide (x.id ≠ id)) ++ [e] := by
  induction path with
  | nil => simp at h
  | cons x rest ih =>
    by_cases hx : x.id = id
    · simp [hx]
    · have hmem : id ∈ rest.map SessionEntry.id := by
        rcases List.mem_cons.mp h with h | h
        · exact absurd h.symm hx
        · exact h
      simpa [hx] using ih hmem

theorem nextRetained_of_not_mem {id : EntryId} (h : id ∉ path.map SessionEntry.id) :
    nextRetained path id = none := by
  rw [nextRetained, dropWhile_of_not_mem h]
  rfl

theorem nextRetained_mem {id : EntryId} {y : SessionEntry} (h : nextRetained path id = some y) :
    id ∈ path.map SessionEntry.id := by
  by_contra hc
  rw [nextRetained_of_not_mem hc] at h
  cases h

theorem nextRetained_concat (path : List SessionEntry) (e : SessionEntry) (id : EntryId) :
    nextRetained (path ++ [e]) id
      = (nextRetained path id).or (if (id ∈ path.map SessionEntry.id ∨ id = e.id)
            ∧ e.isLabelOrPrune = false then some e else none) := by
  by_cases hmem : id ∈ path.map SessionEntry.id
  · rw [nextRetained, dropWhile_concat_of_mem hmem, find?_append]
    cases he : e.isLabelOrPrune <;> simp [nextRetained, hmem, he]
  · rw [nextRetained_of_not_mem hmem, nextRetained, dropWhile_append, dropWhile_of_not_mem hmem]
    by_cases hie : id = e.id
    · cases he : e.isLabelOrPrune <;> simp [hie, he]
    · simp [Ne.symm hie, hie, hmem]

theorem get?_foldl_pending (pending : List EntryId) (id y : EntryId)
    (m : InsertionMap EntryId EntryId) :
    (pending.foldl (fun m d => m.set d y) m).get? id
      = if id ∈ pending then some y else m.get? id := by
  induction pending generalizing m with
  | nil => simp
  | cons d rest ih =>
    rw [foldl_cons, ih, InsertionMap.get?_set]
    by_cases hr : id ∈ rest
    · simp [hr]
    · by_cases hd : d = id
      · simp [hd]
      · simp [hr, hd, Ne.symm hd]

theorem RetainState.Tracks.step {s : RetainState} (h : s.Tracks path)
    (hid : e.id ∉ path.map SessionEntry.id) : (s.step e).Tracks (path ++ [e]) := by
  intro id
  have hcur := h id
  rw [nextRetained_concat]
  unfold RetainState.step
  cases he : e.isLabelOrPrune with
  | true =>
    -- one more pending id
    cases hn : nextRetained path id with
    | some y =>
      rw [hn] at hcur
      have hne : id ≠ e.id := fun hc => hid (hc ▸ nextRetained_mem hn)
      simpa [hne] using hcur
    | none =>
      rw [hn] at hcur
      simp [hcur.1, hcur.2]
  | false =>
    -- everything pending now points at this entry
    cases hn : nextRetained path id with
    | some y =>
      rw [hn] at hcur
      simpa [replaceDropped, get?_foldl_pending, hcur.2] using hcur.1
    | none =>
      rw [hn] at hcur
      by_cases hmem : id ∈ path.map SessionEntry.id
      · have hp := hcur.2.mpr hmem
        simp [hmem, replaceDropped, get?_foldl_pending, hp]
      · have hp : id ∉ s.pendingDroppedIds := fun hc => hmem (hcur.2.mp hc)
        by_cases hie : id = e.id
        · have hpe : e.id ∉ s.pendingDroppedIds := hie ▸ hp
          have hge : s.replacementByDroppedId.get? e.id = none := hie ▸ hcur.1
          simp [hie, replaceDropped, get?_foldl_pending, hpe, hge]
        · simp [hmem, hie, get?_foldl_pending, hp, hcur.1]

theorem retainPath_tracks (hnd : (path.map SessionEntry.id).Nodup) :
    (retainPath path).Tracks path := by
  induction path using List.reverseRecOn with
  | nil =>
    intro id
    simp [nextRetained, retainPath]
  | append_singleton path e ih =>
    rw [map_append, nodup_append] at hnd
    rw [retainPath, foldl_append, foldl_cons, foldl_nil]
    exact (ih hnd.1).step fun hc => hnd.2.2 _ hc _ (by simp) rfl

theorem filter_comm_retained (l : List SessionEntry) :
    retainedEntries (l.filter (fun e => !e.isRawSystem))
      = (retainedEntries l).filter (fun e => !e.isRawSystem) := by
  simp only [retainedEntries, filter_filter, Bool.and_comm]

/-- **A moved boundary keeps the same range.** -/
theorem keptEntries_retained {pre : List SessionEntry}
    (hnd : ((pre ++ [e]).map SessionEntry.id).Nodup) (he : e.isLabelOrPrune = false)
    (first : EntryId) :
    keptEntries (replaceDropped
        (retainPath (pre ++ [e])).replacementByDroppedId first) false (retainedEntries pre)
      = retainedEntries (keptEntries first false pre) := by
  have hid : e.id ∉ pre.map SessionEntry.id := by
    rw [map_append, nodup_append] at hnd
    exact fun hc => hnd.2.2 _ hc _ (by simp) rfl
  have hpre : (pre.map SessionEntry.id).Nodup := by
    rw [map_append, nodup_append] at hnd
    exact hnd.1
  have htrack := retainPath_tracks hnd first
  rw [nextRetained_concat] at htrack
  rw [keptEntries_eq first, filter_comm_retained]
  have hsub : ∀ x, x ∈ (retainedEntries pre).map SessionEntry.id → x ∈ pre.map SessionEntry.id :=
    fun x hx => (List.filter_sublist.map SessionEntry.id).subset hx
  cases hn : nextRetained pre first with
  | some y =>
    -- the range starts at a retained entry of the old path
    rw [hn] at htrack
    simp only [Option.some_or] at htrack
    rw [htrack.1]
    obtain ⟨hy, w₁, w₂, hw, hw₁⟩ := List.find?_eq_some_iff_append.mp hn
    have hret : retainedEntries (pre.dropWhile (fun x => decide (x.id ≠ first)))
          = y :: retainedEntries w₂ := by
      rw [hw, retainedEntries_append]
      have hnil : retainedEntries w₁ = [] := by
        rw [retainedEntries, filter_eq_nil_iff]
        intro x hx
        simpa using hw₁ x hx
      rw [hnil, nil_append]
      exact filter_cons_of_pos hy
    have hsplit : retainedEntries pre
        = retainedEntries (pre.takeWhile (fun x => decide (x.id ≠ first)))
          ++ y :: retainedEntries w₂ := by
      rw [← hret, ← retainedEntries_append, takeWhile_append_dropWhile]
    have hrnd : ((retainedEntries pre).map SessionEntry.id).Nodup :=
      (List.filter_sublist.map SessionEntry.id).nodup hpre
    rw [hsplit] at hrnd ⊢
    rw [hret, keptEntries_of_nodup hrnd]
  | none =>
    have hnil : retainedEntries (pre.dropWhile (fun x => decide (x.id ≠ first))) = [] := by
      rw [retainedEntries, filter_eq_nil_iff]
      intro x hx
      simpa using List.find?_eq_none.mp hn x hx
    rw [hnil, filter_nil]
    apply keptEntries_of_not_mem
    intro hc
    rw [hn] at htrack
    by_cases hmem : first ∈ pre.map SessionEntry.id
    · simp [hmem, he] at htrack
      exact hid (hsub _ (htrack.1 ▸ hc))
    · by_cases hfe : first = e.id
      · simp [hfe, he] at htrack
        rw [hfe, htrack.1] at hc
        exact hid (hsub _ hc)
      · simp [hmem, hfe] at htrack
        rw [replaceDropped, htrack.1] at hc
        exact hmem (hsub _ hc)

end ReflectivePi.Session
