import ReflectivePi.Session.Manager

/-!
# Session — Branch

What one append does to the current branch, to the compaction-aware
selection of it and to the changes in force: the lemmas every statement
about a run of appends is assembled from.
-/

namespace ReflectivePi.Session

open List InsertionMap ParentWalk

/-! ## Well-formed sessions -/

/-- The entry an edit or a cancel is about. -/
def SessionEntry.changeTarget? (e : SessionEntry) : Option EntryId :=
  match e.kind with
  | .contextEdit targetId _ _ => some targetId
  | .contextEditCancel targetId => some targetId
  | _ => none

namespace SessionManager

/-- Distinct ids, parents and targets that exist, and no parent cycle. -/
structure WellFormed (m : SessionManager) : Prop where
  nodup : m.ids.Nodup
  acyclic : Acyclic SessionEntry.id SessionEntry.parentId m.entries
  parents : ∀ e ∈ m.entries, ∀ p ∈ e.parentId, p ∈ m.ids
  leaf : ∀ id ∈ m.leafId, id ∈ m.ids
  targets : ∀ e ∈ m.entries, ∀ t ∈ e.changeTarget?, t ∈ m.ids
  legacy : ∀ t ∈ m.legacyPruneChanges.keys, t ∈ m.ids

variable {m : SessionManager}

/-- The checks a session file passes when every entry was appended under
an earlier one. -/
theorem WellFormed.of_ordered
    (h : ordered SessionEntry.id SessionEntry.parentId [] m.entries = true)
    (leaf : ∀ id ∈ m.leafId, id ∈ m.ids)
    (targets : ∀ e ∈ m.entries, ∀ t ∈ e.changeTarget?, t ∈ m.ids)
    (legacy : ∀ t ∈ m.legacyPruneChanges.keys, t ∈ m.ids) : m.WellFormed :=
  ⟨(ordered_nil h).1, (ordered_nil h).2.1, (ordered_nil h).2.2, leaf, targets, legacy⟩

theorem WellFormed.parent_ne (h : m.WellFormed) {id : EntryId} (hid : id ∉ m.ids) :
    ∀ e ∈ m.entries, e.parentId ≠ some id :=
  fun e he hc => hid (h.parents e he id hc)

theorem WellFormed.leaf_ne (h : m.WellFormed) {id : EntryId} (hid : id ∉ m.ids) :
    m.leafId ≠ some id :=
  fun hc => hid (h.leaf id hc)

@[simp] theorem ids_append (m : SessionManager) (stamp : Stamp)
    (kind : EntryKind) : (m.append stamp kind).ids = m.ids ++ [stamp.id] := by
  simp [append, appendEntry, newEntry, ids]

@[simp] theorem legacyPruneChanges_append (m : SessionManager) (stamp : Stamp) (kind : EntryKind) :
    (m.append stamp kind).legacyPruneChanges = m.legacyPruneChanges := rfl

@[simp] theorem leafId_append (m : SessionManager) (stamp : Stamp)
    (kind : EntryKind) : (m.append stamp kind).leafId = some stamp.id := rfl

variable {stamp : Stamp} {e : SessionEntry}

/-- An append keeps a session well formed when its id is new and its
target, if it has one, exists. -/
theorem WellFormed.append (h : m.WellFormed) {kind : EntryKind}
    (hid : stamp.id ∉ m.ids) (ht : ∀ t ∈ (m.newEntry stamp kind).changeTarget?, t ∈ m.ids) :
    (m.append stamp kind).WellFormed where
  nodup := by
    rw [ids_append, nodup_append]
    exact ⟨h.nodup, by simp, by
      intro a ha b hb hab
      rw [mem_singleton] at hb
      exact hid (hb ▸ hab ▸ ha)⟩
  acyclic := acyclic_concat h.acyclic hid (h.parent_ne hid) (h.leaf_ne hid)
  parents := by
    intro e he p hp
    rw [ids_append, mem_append]
    rcases List.mem_append.mp he with he | he
    · exact .inl (h.parents e he p hp)
    · rw [List.mem_singleton.mp he] at hp
      exact .inl (h.leaf p hp)
  leaf := by
    simp
  targets := by
    intro e he t hte
    rw [ids_append, mem_append]
    rcases List.mem_append.mp he with he | he
    · exact .inl (h.targets e he t hte)
    · rw [List.mem_singleton.mp he] at hte
      exact .inl (ht t hte)
  legacy := by
    intro t hk
    rw [ids_append, mem_append]
    exact .inl (h.legacy t hk)

/-! ## The branch under an append -/

theorem getBranch_append (h : m.WellFormed) (hid : stamp.id ∉ m.ids) (kind : EntryKind) :
    (m.append stamp kind).getBranch = m.getBranch ++ [m.newEntry stamp kind] := by
  have hnew : (m.newEntry stamp kind).id = stamp.id := rfl
  exact ancestry_concat (hnew ▸ h.parent_ne hid) (hnew ▸ h.leaf_ne hid)

theorem getBranch_nodup (h : m.WellFormed) : (m.getBranch.map SessionEntry.id).Nodup :=
  ancestry_nodup h.acyclic _

theorem mem_of_mem_getBranch (he : e ∈ m.getBranch) :
    e ∈ m.entries := ancestry_mem he

theorem id_mem_of_mem_getBranch (he : e ∈ m.getBranch) : e.id ∈ m.ids :=
  mem_map_of_mem (mem_of_mem_getBranch he)

theorem getEntry_of_mem (h : m.WellFormed) (he : e ∈ m.entries) : m.getEntry e.id = some e :=
  lookup_of_mem h.nodup he

theorem buildSessionPath_eq (h : ∀ id ∈ m.leafId, id ∈ m.ids) :
    buildSessionPath m.entries (.ofLeaf m.leafId) = m.getBranch := by
  cases hl : m.leafId with
  | none => simp [LeafArg.ofLeaf, buildSessionPath, getBranch, branchPath, hl, ancestry]
  | some id =>
    have hmem := h id hl
    cases hlk : lookup SessionEntry.id m.entries id with
    | none => exact absurd hmem (lookup_eq_none.mp hlk)
    | some e => simp [LeafArg.ofLeaf, buildSessionPath, getBranch, hl, hlk]

theorem buildContextEntriesAll_eq (h : m.WellFormed) :
    m.buildContextEntriesAll = selectContextEntries m.getBranch := by
  rw [buildContextEntriesAll, Session.buildContextEntries, buildSessionPath_eq h.leaf]

theorem buildSessionProjection_eq (h : ∀ id ∈ m.leafId, id ∈ m.ids) :
    m.buildSessionProjection = projectPath m.contextChanges m.getBranch := by
  simp only [buildSessionProjection, Session.buildSessionProjection,
    buildSessionPath_eq h, contextChanges, resolveContextChanges]

theorem buildSessionPath_getBranch (h : m.WellFormed) :
    buildSessionPath m.getBranch .undefined = m.getBranch := by
  cases hl : m.leafId with
  | none => simp [buildSessionPath, getBranch, branchPath, hl, ancestry]
  | some id =>
    cases hlk : lookup SessionEntry.id m.entries id with
    | none => exact absurd (h.leaf id hl) (lookup_eq_none.mp hlk)
    | some e =>
      have hlast : m.getBranch.getLast? = some e := by
        rw [getBranch, hl]
        exact ancestry_getLast? hlk
      simp only [buildSessionPath, hlast, Option.map_some, (lookup_mem hlk).2]
      rw [getBranch, hl]
      exact ancestry_ancestry h.acyclic _

theorem contextChanges_append (h : m.WellFormed) (hid : stamp.id ∉ m.ids) (kind : EntryKind) :
    (m.append stamp kind).contextChanges
      = applyContextChange m.contextChanges (m.newEntry stamp kind) := by
  simp [contextChanges, resolveContextChanges, getBranch_append h hid, foldl_append]

end SessionManager

variable {t : EntryId} {u v l : List SessionEntry}

theorem keys_legacyChanges {legacy : InsertionMap EntryId PruneEntry}
    (h : t ∈ (legacyChanges legacy).keys) : t ∈ legacy.keys := by
  have hgen : ∀ (l : List (EntryId × PruneEntry)) (ch : ContextChanges),
      t ∈ (l.foldl (fun changes p => changes.set p.1 (.prune p.2)) ch).keys →
      t ∈ ch.keys ∨ t ∈ l.map Prod.fst := by
    intro l
    induction l with
    | nil => intro ch ht; exact .inl ht
    | cons p rest ih =>
      intro ch ht
      rcases ih _ ht with ht | ht
      · rw [mem_keys_set] at ht
        rcases ht with rfl | ht
        · exact .inr (by simp)
        · exact .inl ht
      · exact .inr (mem_cons_of_mem _ ht)
  rcases hgen _ _ h with ht | ht
  · simp [InsertionMap.keys, InsertionMap.empty] at ht
  · exact ht

variable {e : SessionEntry}

theorem keys_applyContextChange {ch : ContextChanges}
    (h : t ∈ (applyContextChange ch e).keys) : t ∈ ch.keys ∨ t ∈ e.changeTarget? := by
  unfold applyContextChange at h
  unfold SessionEntry.changeTarget?
  cases hk : e.kind with
  | contextEdit targetId replacement curation =>
    rw [hk] at h
    rcases InsertionMap.mem_keys_set.mp h with rfl | h
    · exact .inr rfl
    · exact .inl h
  | contextEditCancel targetId =>
    rw [hk] at h
    exact .inl (mem_keys_delete h)
  | _ => rw [hk] at h; exact .inl h

variable {path : List SessionEntry}

theorem keys_foldl_applyContextChange {ch : ContextChanges}
    (h : t ∈ (path.foldl applyContextChange ch).keys) :
    t ∈ ch.keys ∨ ∃ e ∈ path, t ∈ e.changeTarget? := by
  induction path generalizing ch with
  | nil => exact .inl h
  | cons e rest ih =>
    rcases ih h with ht | ⟨x, hx, ht⟩
    · rcases keys_applyContextChange ht with ht | ht
      · exact .inl ht
      · exact .inr ⟨e, by simp, ht⟩
    · exact .inr ⟨x, mem_cons_of_mem _ hx, ht⟩

/-- **No change is in force for an id the session does not have.** -/
theorem SessionManager.contextChanges_get?_fresh {m : SessionManager}
    (h : m.WellFormed) {id : EntryId} (hid : id ∉ m.ids) : m.contextChanges.get? id = none := by
  rw [get?_eq_none]
  intro hk
  rcases keys_foldl_applyContextChange hk with hk | ⟨e, he, ht⟩
  · exact hid (h.legacy id (keys_legacyChanges hk))
  · exact hid (h.targets e (mem_of_mem_getBranch he) id ht)

/-! ## The compaction-aware selection -/

theorem keptEntries_true (first : EntryId) (l : List SessionEntry) :
    keptEntries first true l = l.filter (fun e => !e.isRawSystem) := by
  induction l with
  | nil => rfl
  | cons e rest ih =>
    cases hs : e.isRawSystem <;> simp [keptEntries, hs, ih]

/-- The kept range: everything from the first kept id on, raw system
messages left out. -/
theorem keptEntries_eq (first : EntryId) (l : List SessionEntry) :
    keptEntries first false l = (l.dropWhile (fun e => decide (e.id ≠ first))).filter
          (fun e => !e.isRawSystem) := by
  induction l with
  | nil => rfl
  | cons e rest ih =>
    by_cases he : e.id = first
    · cases hs : e.isRawSystem <;>
        simp [keptEntries, he, hs, keptEntries_true]
    · simp [keptEntries, he, ih]

variable {x : SessionEntry}

theorem dropWhile_of_nodup (hnd : ((u ++ x :: v).map SessionEntry.id).Nodup) :
    (u ++ x :: v).dropWhile (fun e => decide (e.id ≠ x.id)) = x :: v := by
  induction u with
  | nil => simp
  | cons a u ih =>
    rw [cons_append, map_cons, nodup_cons] at hnd
    have hne : a.id ≠ x.id := by
      intro hc
      apply hnd.1
      rw [hc]
      simp
    rw [cons_append, dropWhile_cons_of_pos (by simpa using hne)]
    exact ih hnd.2

theorem keptEntries_of_nodup (hnd : ((u ++ x :: v).map SessionEntry.id).Nodup) :
    keptEntries x.id false (u ++ x :: v) = (x :: v).filter (fun e => !e.isRawSystem) := by
  rw [keptEntries_eq, dropWhile_of_nodup hnd]

theorem dropWhile_of_not_mem {id : EntryId} (h : id ∉ path.map SessionEntry.id) :
    path.dropWhile (fun x => decide (x.id ≠ id)) = [] := by
  induction path with
  | nil => rfl
  | cons x rest ih =>
    rw [map_cons, mem_cons, not_or] at h
    rw [dropWhile_cons_of_pos (by simpa using Ne.symm h.1)]
    exact ih h.2

theorem keptEntries_of_not_mem {first : EntryId}
    (h : first ∉ l.map SessionEntry.id) : keptEntries first false l = [] := by
  rw [keptEntries_eq, dropWhile_of_not_mem h]
  rfl

theorem newestCompaction_concat (path : List SessionEntry) (e : SessionEntry) :
    newestCompaction (path ++ [e]) = match e.kind with
        | .compaction c => some (e, c)
        | _ => newestCompaction path := by
  rw [newestCompaction, foldl_append]
  rfl

variable {c : CompactionEntry}

theorem newestCompaction_split (h : newestCompaction path = some (e, c)) :
    e.kind = .compaction c ∧ ∃ pre post, path = pre ++ e :: post ∧
      ∀ x ∈ post, x.isCompaction = false := by
  induction path using List.reverseRecOn with
  | nil => cases h
  | append_singleton path x ih =>
    rw [newestCompaction_concat] at h
    cases hk : x.kind with
    | compaction c' =>
      rw [hk] at h
      cases h
      exact ⟨hk, path, [], rfl, by simp⟩
    | _ =>
      rw [hk] at h
      obtain ⟨hc, pre, post, hp, hpost⟩ := ih h
      refine ⟨hc, pre, post ++ [x], by simp [hp], ?_⟩
      intro y hy
      rcases List.mem_append.mp hy with hy | hy
      · exact hpost y hy
      · rw [List.mem_singleton.mp hy]
        simp [SessionEntry.isCompaction, hk]

theorem newestCompaction_none (h : newestCompaction path = none) :
    ∀ x ∈ path, x.isCompaction = false := by
  induction path using List.reverseRecOn with
  | nil => simp
  | append_singleton path x ih =>
    rw [newestCompaction_concat] at h
    intro y hy
    cases hk : x.kind with
    | compaction c' => rw [hk] at h; cases h
    | _ =>
      rw [hk] at h
      rcases List.mem_append.mp hy with hy | hy
      · exact ih h y hy
      · rw [List.mem_singleton.mp hy]
        simp [SessionEntry.isCompaction, hk]

variable {pre post : List SessionEntry}

theorem findIdx?_of_nodup (hnd : ((pre ++ e :: post).map SessionEntry.id).Nodup) :
    (pre ++ e :: post).findIdx? (fun x => x.id = e.id) = some pre.length := by
  have hpre : pre.findIdx? (fun x => x.id = e.id) = none := by
    rw [findIdx?_eq_none_iff]
    intro x hx
    have hne : x.id ≠ e.id := by
      intro hc
      rw [map_append, nodup_append] at hnd
      exact hnd.2.2 x.id (mem_map_of_mem hx) e.id (by simp) hc
    simp [hne]
  simp [hpre, findIdx?_cons]

theorem newestCompaction_of_split (hk : e.kind = .compaction c)
    (hpost : ∀ x ∈ post, x.isCompaction = false) :
    newestCompaction (pre ++ e :: post) = some (e, c) := by
  induction post using List.reverseRecOn with
  | nil => rw [newestCompaction_concat, hk]
  | append_singleton post x ih =>
    rw [← cons_append, ← append_assoc, newestCompaction_concat]
    have hx := hpost x (by simp)
    cases hxk : x.kind with
    | compaction c' => simp [SessionEntry.isCompaction, hxk] at hx
    | _ => exact ih fun y hy => hpost y (List.mem_append.mpr (.inl hy))

theorem selectContextEntries_of_none (h : ∀ x ∈ path, x.isCompaction = false) :
    selectContextEntries path = path := by
  cases hn : newestCompaction path with
  | none => simp [selectContextEntries, hn]
  | some p =>
    obtain ⟨hk, pre, post, hp, -⟩ := newestCompaction_split hn
    have hx := h p.1 (by simp [hp])
    simp [SessionEntry.isCompaction, hk] at hx

theorem selectContextEntries_of_split (hk : e.kind = .compaction c)
    (hpost : ∀ x ∈ post, x.isCompaction = false)
    (hnd : ((pre ++ e :: post).map SessionEntry.id).Nodup) :
    selectContextEntries (pre ++ e :: post)
      = e :: (keptEntries c.firstKeptEntryId false pre ++ post) := by
  have hidx := findIdx?_of_nodup hnd
  simp only [selectContextEntries, newestCompaction_of_split hk hpost, hidx]
  simp

/-- **The selection, in closed form.** Without a compaction it is the
path; otherwise the newest compaction, its kept range and what follows. -/
theorem selectContextEntries_cases (hnd : (path.map SessionEntry.id).Nodup) :
    (newestCompaction path = none ∧ selectContextEntries path = path ∧
      ∀ x ∈ path, x.isCompaction = false) ∨
    ∃ e c pre post, newestCompaction path = some (e, c) ∧
      e.kind = .compaction c ∧ path = pre ++ e :: post ∧
      (∀ x ∈ post, x.isCompaction = false) ∧
      selectContextEntries path = e :: (keptEntries c.firstKeptEntryId false pre ++ post) := by
  cases hn : newestCompaction path with
  | none => exact .inl ⟨rfl, by simp [selectContextEntries, hn], newestCompaction_none hn⟩
  | some p =>
    obtain ⟨e, c⟩ := p
    obtain ⟨hk, pre, post, hp, hpost⟩ := newestCompaction_split hn
    refine .inr ⟨e, c, pre, post, rfl, hk, hp, hpost, ?_⟩
    rw [hp] at hnd ⊢
    exact selectContextEntries_of_split hk hpost hnd

theorem selectContextEntries_concat (he : e.isCompaction = false) :
    selectContextEntries (path ++ [e]) = selectContextEntries path ++ [e] := by
  have hnew : newestCompaction (path ++ [e]) = newestCompaction path := by
    rw [newestCompaction_concat]
    cases hk : e.kind with
    | compaction c => simp [SessionEntry.isCompaction, hk] at he
    | _ => rfl
  cases hn : newestCompaction path with
  | none => simp [selectContextEntries, hnew, hn]
  | some newest =>
    obtain ⟨x, c⟩ := newest
    obtain ⟨-, pre, post, hp, -⟩ := newestCompaction_split hn
    have hfound : (path.findIdx? fun y => y.id = x.id).isSome := by
      rw [findIdx?_isSome, any_eq_true]
      exact ⟨x, by simp [hp], by simp⟩
    obtain ⟨i, hi⟩ := Option.isSome_iff_exists.mp hfound
    have hlt : i < path.length := (List.findIdx?_eq_some_iff_getElem.mp hi).1
    have hi' : (path ++ [e]).findIdx? (fun y => y.id = x.id) = some i := by
      rw [findIdx?_append, hi]
      rfl
    simp only [selectContextEntries, hnew, hn, hi, hi']
    rw [take_append_of_le_length (Nat.le_of_lt hlt), drop_append_of_le_length hlt, append_assoc]

theorem selectContextEntries_append (hl : ∀ e ∈ l, e.isCompaction = false) :
    selectContextEntries (path ++ l) = selectContextEntries path ++ l := by
  induction l using List.reverseRecOn with
  | nil => simp
  | append_singleton l e ih =>
    rw [← append_assoc, selectContextEntries_concat (hl e (by simp)),
      ih fun x hx => hl x (by simp [hx]), append_assoc]

theorem selectContextEntries_concat_compaction (hk : e.kind = .compaction c)
    (hid : e.id ∉ path.map SessionEntry.id) :
    selectContextEntries (path ++ [e]) = e :: keptEntries c.firstKeptEntryId false path := by
  have hnew : newestCompaction (path ++ [e]) = some (e, c) := by
    rw [newestCompaction_concat, hk]
  have hnone : path.findIdx? (fun x => x.id = e.id) = none := by
    rw [findIdx?_eq_none_iff]
    intro x hx
    have : x.id ≠ e.id := fun hc => hid (hc ▸ mem_map_of_mem hx)
    simp [this]
  have hidx : (path ++ [e]).findIdx? (fun x => x.id = e.id) = some path.length := by
    rw [findIdx?_append, hnone]
    simp
  simp [selectContextEntries, hnew, hidx]

theorem mem_of_mem_selectContextEntries (hnd : (path.map SessionEntry.id).Nodup)
    (h : x ∈ selectContextEntries path) : x ∈ path := by
  rcases selectContextEntries_cases hnd with
    ⟨-, hs, -⟩ | ⟨e, c, pre, post, -, -, hp, -, hs⟩
  · rwa [hs] at h
  · rw [hs, keptEntries_eq] at h
    rw [hp]
    rcases List.mem_cons.mp h with rfl | h
    · simp
    · rcases List.mem_append.mp h with h | h
      · have hmem := (dropWhile_sublist _).subset (List.mem_filter.mp h).1
        exact List.mem_append.mpr (.inl hmem)
      · exact List.mem_append.mpr (.inr (mem_cons_of_mem _ h))

theorem selectContextEntries_nodup (hnd : (path.map SessionEntry.id).Nodup) :
    ((selectContextEntries path).map SessionEntry.id).Nodup := by
  rcases selectContextEntries_cases hnd with
    ⟨-, hs, -⟩ | ⟨e, c, pre, post, -, -, hp, -, hs⟩
  · rwa [hs]
  · rw [hs, keptEntries_eq]
    have hsub : (e :: ((pre.dropWhile (fun x => decide (x.id ≠ c.firstKeptEntryId))).filter
          (fun x => !x.isRawSystem) ++ post)).Sublist (e :: (pre ++ post)) :=
      ((List.filter_sublist.trans (dropWhile_sublist _)).append_right post).cons_cons e
    refine (hsub.map SessionEntry.id).nodup ?_
    rw [hp] at hnd
    exact (List.perm_middle.map SessionEntry.id).nodup_iff.mp hnd

theorem flatMap_filter {α β : Type} (f : α → List β) (q : α → Bool) (l : List α) :
    (l.filter q).flatMap f = l.flatMap (fun e => if q e then f e else []) := by
  induction l with
  | nil => rfl
  | cons e rest ih => cases hq : q e <;> simp [hq, ih]

theorem sublist_eq_filter {l' : List SessionEntry} (h : l.Sublist l')
    (hnd : l'.Nodup) : l = l'.filter (fun e => decide (e ∈ l)) := by
  induction h with
  | slnil => rfl
  | @cons l₁ l₂ a hsub ih =>
    rw [nodup_cons] at hnd
    have ha : a ∉ l₁ := fun hc => hnd.1 (hsub.subset hc)
    rw [filter_cons_of_neg (by simpa using ha)]
    exact ih hnd.2
  | @cons_cons l₁ l₂ a hsub ih =>
    rw [nodup_cons] at hnd
    rw [filter_cons_of_pos (by simp)]
    congr 1
    rw [ih hnd.2]
    apply filter_congr
    intro x hx
    have hne : x ≠ a := fun hc => hnd.1 (hc ▸ hx)
    rw [← ih hnd.2]
    simp [hne]

/-- Where an entry of the selection after its first sits on the path: what
follows it there is what follows it in the selection, with raw system
messages and older compactions in between. -/
theorem selectContextEntries_place (hnd : (path.map SessionEntry.id).Nodup)
    (hsel : selectContextEntries path = u ++ x :: v) (hu : u ≠ []) :
    ∃ p q, path = p ++ x :: q ∧ (x :: v).Sublist (x :: q) ∧
      ∀ e ∈ x :: q, e.isRawSystem = false → e.isCompaction = false → e ∈ x :: v := by
  rcases selectContextEntries_cases hnd with
    ⟨-, hs, -⟩ | ⟨e, c, pre, post, -, hk, hp, -, hs⟩
  · exact ⟨u, v, by rw [← hs, hsel], List.Sublist.refl _, fun _ he _ _ => he⟩
  · obtain ⟨a, u', rfl⟩ : ∃ a u', u = a :: u' := by
      cases u with
      | nil => exact absurd rfl hu
      | cons a u' => exact ⟨a, u', rfl⟩
    rw [hs, cons_append, List.cons.injEq] at hsel
    rcases List.append_eq_append_iff.mp hsel.2 with
      ⟨w, hu', hpost⟩ | ⟨w, hkept, hv⟩
    · -- the entry lies after the newest compaction
      exact ⟨pre ++ e :: w, v, by rw [hp, hpost]; simp, List.Sublist.refl _, fun _ he _ _ => he⟩
    · cases w with
      | nil =>
        refine ⟨pre ++ [e], v, ?_, List.Sublist.refl _, fun _ he _ _ => he⟩
        rw [hp, ← nil_append post, ← hv]
        simp
      | cons y w =>
        -- the entry lies in the range the newest compaction keeps
        obtain ⟨rfl, rfl⟩ := List.cons.inj hv
        rw [keptEntries_eq] at hkept
        obtain ⟨a', b', hab, -, hb⟩ := List.filter_eq_append_iff.mp hkept
        obtain ⟨b₁, b₂, rfl, -, hx, hw⟩ := List.filter_eq_cons_iff.mp hb
        refine ⟨pre.takeWhile (fun z => decide (z.id ≠ c.firstKeptEntryId))
          ++ a' ++ b₁, b₂ ++ e :: post, ?_, ?_, ?_⟩
        · conv_lhs => rw [hp, ← takeWhile_append_dropWhile
            (p := fun z => decide (z.id ≠ c.firstKeptEntryId)) (l := pre), hab]
          simp
        · rw [← hw]
          exact (List.filter_sublist.append (sublist_cons_self e post)).cons_cons x
        · intro z hz hsys hzc
          rcases List.mem_cons.mp hz with rfl | hz
          · exact mem_cons_self
          · apply mem_cons_of_mem
            rcases List.mem_append.mp hz with hz | hz
            · rw [← hw]
              exact List.mem_append.mpr (.inl (List.mem_filter.mpr
                ⟨hz, by simp [hsys]⟩))
            · rcases List.mem_cons.mp hz with rfl | hz
              · simp [SessionEntry.isCompaction, hk] at hzc
              · exact List.mem_append.mpr (.inr hz)

namespace SessionManager

variable {m : SessionManager} {stamp : Stamp}

theorem selectContextEntries_append_compaction
    (h : m.WellFormed) (hid : stamp.id ∉ m.ids) (c : CompactionEntry) :
    selectContextEntries (m.append stamp (.compaction c)).getBranch
      = m.newEntry stamp (.compaction c) :: keptEntries c.firstKeptEntryId false m.getBranch := by
  rw [getBranch_append h hid]
  refine selectContextEntries_concat_compaction (c := c) rfl ?_
  intro hm
  obtain ⟨e, he, heq⟩ := List.mem_map.mp hm
  have hmem := id_mem_of_mem_getBranch he
  rw [heq] at hmem
  exact hid hmem

theorem contextChanges_append_compaction
    (h : m.WellFormed) (hid : stamp.id ∉ m.ids) (c : CompactionEntry) :
    (m.append stamp (.compaction c)).contextChanges = m.contextChanges := by
  rw [contextChanges_append h hid]
  rfl

theorem WellFormed.append_compaction (h : m.WellFormed)
    (hid : stamp.id ∉ m.ids) (c : CompactionEntry) : (m.append stamp (.compaction c)).WellFormed :=
  h.append hid (by nofun)

end SessionManager

/-! ## Projected entries -/

/-- What an entry contributes anywhere but at the head of the selection. -/
def contribution (changes : ContextChanges) (e : SessionEntry) : List AgentMessage :=
  if e.isCompaction then [] else projectContextEntry e (changes.get? e.id)

def projectTail (changes : ContextChanges) (l : List SessionEntry) : List ProjectedSessionEntry :=
  l.map fun e => ⟨e, contribution changes e⟩

theorem projectEntries_cons (changes : ContextChanges) (e : SessionEntry) (l : List SessionEntry) :
    projectEntries changes (e :: l) = ⟨e, projectContextEntry e (changes.get? e.id)⟩
          :: projectTail changes l := by
  simp only [projectEntries, projectTail, mapIdx_cons, Nat.lt_irrefl,
    decide_false, Bool.and_false, Bool.false_eq_true, if_false]
  congr 1
  apply ext_getElem
  · simp
  · intro i h1 h2
    simp [contribution]

theorem projectEntries_eq_tail (changes : ContextChanges) (h : ∀ x ∈ l, x.isCompaction = false) :
    projectEntries changes l = projectTail changes l := by
  cases l with
  | nil => rfl
  | cons e rest =>
    rw [projectEntries_cons]
    simp [projectTail, contribution, h e (by simp)]

theorem messages_projectTail (changes : ContextChanges) (l : List SessionEntry) :
    (projectTail changes l).flatMap ProjectedSessionEntry.messages
      = l.flatMap (contribution changes) := by
  simp [projectTail, flatMap_map]

theorem filter_projectTail (q : SessionEntry → Bool) (changes : ContextChanges)
    (l : List SessionEntry) :
    (projectTail changes l).filter (fun e => q e.sourceEntry)
      = projectTail changes (l.filter q) := by
  simp [projectTail, filter_map, Function.comp_def]

theorem sourceEntry_projectEntries (changes : ContextChanges) (l : List SessionEntry) :
    (projectEntries changes l).map ProjectedSessionEntry.sourceEntry = l := by
  apply ext_getElem
  · simp [projectEntries]
  · intro i h1 h2
    simp [projectEntries]

end ReflectivePi.Session
