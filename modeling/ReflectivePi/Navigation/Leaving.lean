import ReflectivePi.Navigation.Tree

/-!
# Navigation — Leaving

What the parts of a navigation do: writes meanwhile only extend the branch,
and once the leaf is moved the context is the projection at the new leaf,
then the summary, then the status note.
-/

namespace ReflectivePi.Navigation

open List ParentWalk Session LiveManager

/-- A session whose edits and markers are about entries it has. -/
structure Sound (m : LiveManager) : Prop where
  good : Good m
  targets : ∀ e ∈ m.getEntries, m.Targets e
  legacy : ∀ t ∈ m.legacyPruneChanges.keys, t ∈ m.getEntries.map SessionEntry.id

variable {m m' : LiveManager} {env : Environment} {s s' : State} {ws : List Write}
  (migrate : List FileEntry → List FileEntry × Bool)

/-! ## Writes -/

theorem Sound.appended (h : Sound m) (hm : Appends m.Targets m m') : Sound m' := by
  obtain ⟨new, -, hentries, hnew⟩ := hm.appended
  have hids : ∀ t ∈ m.getEntries.map SessionEntry.id, t ∈ m'.getEntries.map SessionEntry.id := by
    intro t ht
    rw [hentries, map_append]
    exact mem_append_left _ ht
  refine ⟨hm.good, fun e he t ht => hids t ?_, fun t ht => hids t ?_⟩
  · rw [hentries] at he
    rcases List.mem_append.mp he with he | he
    · exact h.targets e he t ht
    · exact hnew e he t ht
  · rw [hm.legacy] at ht
    exact h.legacy t ht

@[simp] theorem manager_write (s : State) (w : Write) :
    (s.write migrate env w).manager = (s.manager.perform migrate env w.op).manager := by
  unfold State.write
  dsimp only
  split <;> rfl

theorem grows_of_appends {w : Write} (h : w.appends = true) : w.op.grows = true := by
  obtain ⟨op, refresh⟩ := w
  cases op <;> first | rfl | cases h

section

variable (hfresh : env.Fresh) (h : Sound s.manager) (hws : ∀ w ∈ ws, w.appends = true)

include hfresh h hws

/-- **Writes meanwhile extend the branch** and keep the session sound. -/
theorem writeAll_appends :
    Sound (s.writeAll migrate env ws).manager ∧
      Appends (fun _ => True) s.manager (s.writeAll migrate env ws).manager := by
  induction ws generalizing s with
  | nil => exact ⟨h, .refl h.good⟩
  | cons w ws ih =>
    have hone : Appends (fun e => e.Spares [] ∧ s.manager.Targets e) s.manager
        (s.manager.perform migrate env w.op).manager :=
      appends_perform h.good hfresh (hws w (by simp))
    have hsound : Sound (s.write migrate env w).manager := by
      rw [manager_write]
      exact h.appended (hone.mono fun _ he => he.2)
    obtain ⟨hrest, happends⟩ := ih hsound fun x hx => hws x (by simp [hx])
    rw [manager_write] at happends
    exact ⟨hrest, (hone.mono fun _ _ => trivial).trans happends⟩

theorem writeAll_grown :
    GrownFrom s.manager.getEntries (s.writeAll migrate env ws).manager.getEntries := by
  induction ws using List.reverseRecOn with
  | nil => exact .refl
  | append_singleton ws w ih =>
    have hrest : ∀ x ∈ ws, x.appends = true := fun x hx => hws x (by simp [hx])
    obtain ⟨hsound, -⟩ := writeAll_appends migrate hfresh h hrest
    have hone : GrownFrom (s.writeAll migrate env ws).manager.getEntries
        ((s.writeAll migrate env ws).write migrate env w).manager.getEntries := by
      rw [manager_write]
      exact grown_perform hsound.good.synced hfresh (grows_of_appends (hws w (by simp)))
    rw [State.writeAll, foldl_append]
    exact (ih hrest).trans hone

theorem walk_writeAll
    {k : Option EntryId}
    (hk : ∀ id ∈ k, id ∈ s.manager.getEntries.map SessionEntry.id) :
    (s.writeAll migrate env ws).manager.walk k = s.manager.walk k := by
  obtain ⟨hsound, -⟩ := writeAll_appends migrate hfresh h hws
  rw [hsound.good.synced.walk_eq, h.good.synced.walk_eq]
  exact (writeAll_grown migrate hfresh h hws).ancestry_eq h.good.tree hk

end

variable {e : SessionEntry} {summaryText : Option String}

theorem projectEntries_concat {changes : ContextChanges} {l : List SessionEntry}
    (he : e.isCompaction = false) (hchange : changes.get? e.id = none) :
    projectEntries changes (l ++ [e])
      = projectEntries changes l ++ [⟨e, sessionEntryToContextMessages e⟩] := by
  unfold projectEntries
  rw [mapIdx_append]
  simp [he, hchange, projectContextEntry]

theorem applyContextChange_of_none {changes : ContextChanges}
    (h : e.changeTarget? = none) : applyContextChange changes e = changes := by
  unfold SessionEntry.changeTarget? at h
  unfold applyContextChange
  cases hk : e.kind <;> simp_all

/-- **An entry that is no edit adds its own messages to the context.** -/
theorem messages_appended (h : Sound m) (h' : Good m') (hbranch : m'.getBranch = m.getBranch ++ [e])
    (hlegacy : m'.legacyPruneChanges = m.legacyPruneChanges)
    (hnew : e.id ∉ m.getEntries.map SessionEntry.id)
    (he : e.isCompaction = false) (htarget : e.changeTarget? = none) :
    m'.buildSessionProjection.messages
      = m.buildSessionProjection.messages ++ sessionEntryToContextMessages e := by
  have hbranch_mem : ∀ x ∈ m.getBranch, x ∈ m.getEntries := by
    intro x hx
    rw [getBranch, h.good.synced.walk_eq] at hx
    exact ancestry_mem hx
  have hnone : (m.getBranch.foldl applyContextChange
      (legacyChanges m.legacyPruneChanges)).get? e.id = none := by
    rw [InsertionMap.get?_eq_none]
    intro hk
    rcases keys_foldl_applyContextChange hk with hk | ⟨x, hx, ht⟩
    · exact hnew (h.legacy _ (keys_legacyChanges hk))
    · exact hnew (h.targets x (hbranch_mem x hx) _ ht)
  rw [h.good.buildSessionProjection_eq, h'.buildSessionProjection_eq, hbranch, hlegacy,
    foldl_append, foldl_cons, foldl_nil, applyContextChange_of_none htarget]
  unfold projectPath
  dsimp only
  rw [selectContextEntries_concat he, projectEntries_concat he hnone, flatMap_append]
  simp

/-! ## Moving the leaf -/

theorem Sound.moved (h : Sound m) {leafId : Option EntryId}
    (hleaf : ∀ id ∈ leafId, id ∈ m.getEntries.map SessionEntry.id) : Sound { m with leafId } :=
  ⟨⟨synced_branchTo h.good.synced hleaf, h.good.tree⟩, h.targets, h.legacy⟩

theorem has_of_mem (h : Synced m) {id : EntryId}
    (hid : id ∈ m.getEntries.map SessionEntry.id) : m.byId.has id = true := by
  rw [InsertionMap.has, h.byId]
  cases hlookup : lookup SessionEntry.id m.getEntries id with
  | none => exact absurd hid (lookup_eq_none.mp hlookup)
  | some e => rfl

theorem attachLabel_spec (hfresh : env.Fresh) (h : Sound s.manager) {id : EntryId}
    (hid : id ∈ s.manager.getEntries.map SessionEntry.id) (label : Option String) :
    ∃ s', attachLabel migrate env s id label = (s', none) ∧ Sound s'.manager ∧
      s'.manager.buildSessionProjection.messages = s.manager.buildSessionProjection.messages := by
  unfold attachLabel
  cases truthy label with
  | none => exact ⟨s, rfl, h, rfl⟩
  | some label =>
    have hhas := has_of_mem h.good.synced hid
    have happends : Appends s.manager.Targets s.manager
        (s.manager.perform migrate env (.appendLabelChange id (some label))).manager :=
      appends_label h.good hfresh id (some label) (targets_of_none rfl)
    refine ⟨(s.perform migrate env (.appendLabelChange id (some label))).1, ?_,
      h.appended happends, ?_⟩
    · simp [State.perform, LiveManager.perform, hhas]
    · have hentries : (s.manager.perform migrate env
          (.appendLabelChange id (some label))).manager.getEntries
            = s.manager.getEntries ++ [s.manager.newEntry env (.label id (some label))] := by
        simp only [LiveManager.perform, hhas, Bool.not_true, Bool.false_eq_true, if_false]
        exact getEntries_appendEntry _ _
      have hleaf : (s.manager.perform migrate env
          (.appendLabelChange id (some label))).manager.leafId
            = some (s.manager.newEntry env (.label id (some label))).id := by
        simp only [LiveManager.perform, hhas, Bool.not_true, Bool.false_eq_true, if_false]
        exact leafId_appendEntry _ _
      have hbranch := getBranch_appended h.good hfresh happends.good.synced hentries hleaf
      have hmessages := messages_appended h happends.good hbranch happends.legacy
        (h.good.nextId_notMem hfresh) rfl rfl
      simpa [State.perform, sessionEntryToContextMessages, newEntry] using hmessages

theorem truthy_ne {text : String}
    (h : truthy summaryText = some text) : text ≠ "" := by
  have hkept := (Option.filter_eq_some_iff.mp h).2
  simpa using hkept

/-- **With a summary**: the context is the one at the new leaf and then the
summary. -/
theorem switchLeaf_some (hfresh : env.Fresh) (h : Sound s.manager) (targetId : EntryId)
    (label : Option String) {newLeafId : Option EntryId}
    {text : String} (hleaf : ∀ id ∈ newLeafId, id ∈ s.manager.getEntries.map SessionEntry.id)
    (htext : truthy summaryText = some text) :
    ∃ s' e fromId, switchLeaf migrate env s targetId newLeafId summaryText label
        = (s', .ok (some e)) ∧ e.kind = .branchSummary fromId text ∧
      s'.manager.buildSessionProjection.messages
        = { s.manager with leafId := newLeafId }.buildSessionProjection.messages
          ++ [.branchSummary text fromId e.timestamp] := by
  obtain ⟨fromId, hfrom⟩ : ∃ fromId,
      (s.manager.leafId.map EntryId.val).getD "root" = fromId := ⟨_, rfl⟩
  have hmoved := h.moved hleaf
  generalize hm : ({ s.manager with leafId := newLeafId } : LiveManager) = moved
  have hentries : moved.getEntries = s.manager.getEntries := by
    rw [← hm]
    rfl
  rw [hm] at hmoved
  have hperform : s.perform migrate env (.branchWithSummary newLeafId text)
      = ({ s with manager := (moved.append env (.branchSummary fromId text)).1 }, none) := by
    unfold State.perform LiveManager.perform
    cases newLeafId with
    | none => simp [done, hfrom, hm]
    | some id =>
      have hhas := has_of_mem h.good.synced (hleaf id rfl)
      simp [done, hfrom, hm, hhas]
  have happends : Appends moved.Targets moved (moved.append env (.branchSummary fromId text)).1 :=
    appends_append hmoved.good hfresh rfl (targets_of_none rfl)
  have hleaf' : (moved.append env (.branchSummary fromId text)).1.leafId
      = some (moved.newEntry env (.branchSummary fromId text)).id :=
    leafId_appendEntry _ _
  have hadded : (moved.append env (.branchSummary fromId text)).1.getEntries
      = moved.getEntries ++ [moved.newEntry env (.branchSummary fromId text)] :=
    getEntries_appendEntry _ _
  have hbranch := getBranch_appended hmoved.good hfresh happends.good.synced hadded hleaf'
  have hmessages := messages_appended hmoved happends.good hbranch happends.legacy
    (hmoved.good.nextId_notMem hfresh) rfl rfl
  have hsound := hmoved.appended happends
  generalize hnext : (moved.append env (.branchSummary fromId text)).1 = next at *
  have hmem : moved.newEntry env (.branchSummary fromId text) ∈ next.getEntries := by
    rw [hadded]
    simp
  obtain ⟨s', hlabel, -, hsame⟩ := attachLabel_spec migrate hfresh
    (s := { s with manager := next }) hsound (mem_map_of_mem hmem) label
  have hget : next.byId.get? (moved.newEntry env (.branchSummary fromId text)).id
      = some (moved.newEntry env (.branchSummary fromId text)) := by
    rw [hsound.good.synced.byId]
    exact lookup_of_mem hsound.good.tree.distinct hmem
  refine ⟨s', moved.newEntry env (.branchSummary fromId text), fromId, ?_, rfl, ?_⟩
  · unfold switchLeaf
    simp only [htext, hperform, hleaf', hlabel, hget]
  · rw [hsame]
    show next.buildSessionProjection.messages = _
    rw [hmessages]
    simp [sessionEntryToContextMessages, newEntry, truthy_ne htext]

theorem switchLeaf_none (hfresh : env.Fresh) (h : Sound s.manager) {targetId : EntryId}
    (label : Option String) {newLeafId : Option EntryId}
    (htarget : targetId ∈ s.manager.getEntries.map SessionEntry.id)
    (hleaf : ∀ id ∈ newLeafId, id ∈ s.manager.getEntries.map SessionEntry.id)
    (htext : truthy summaryText = none) :
    ∃ s', switchLeaf migrate env s targetId newLeafId summaryText label = (s', .ok none) := by
  obtain ⟨s', hlabel, -⟩ := attachLabel_spec migrate hfresh
    (s := { s with manager := { s.manager with leafId := newLeafId } })
    (h.moved hleaf) htarget label
  refine ⟨s', ?_⟩
  unfold switchLeaf
  cases newLeafId with
  | none => simp [htext, State.perform, LiveManager.perform, hlabel]
  | some id =>
    have hhas := has_of_mem h.good.synced (hleaf id rfl)
    simp [htext, State.perform, LiveManager.perform, hhas, hlabel]

theorem newLeaf_mem (h : Good m) {targetId : EntryId} {target : SessionEntry}
    (htarget : m.byId.get? targetId = some target) :
    ∀ id ∈ (newLeaf targetId target).1, id ∈ m.getEntries.map SessionEntry.id := by
  rw [h.synced.byId] at htarget
  obtain ⟨hmem, hid⟩ := lookup_mem htarget
  intro id hleaf
  unfold newLeaf at hleaf
  split at hleaf
  · exact h.tree.parents target hmem id hleaf
  · exact h.tree.parents target hmem id hleaf
  · rw [Option.mem_some_iff] at hleaf
    rw [← hleaf, ← hid]
    exact mem_map_of_mem hmem

end ReflectivePi.Navigation
