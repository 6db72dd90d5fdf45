import ReflectivePi.Session.Growth

/-!
# Session — Extension

What stays true of the current branch while entries are appended to it: its
path only gets longer, and an entry that was edited away stays out of the
context until somebody edits it again.
-/

namespace ReflectivePi.Session

open List ParentWalk

/-! ## Hidden entries -/

/-- An edit that takes its target out of the context. -/
def SessionEntry.hides (e : SessionEntry) (id : EntryId) : Prop :=
  ∃ curation, e.kind = .contextEdit id none curation

/-- The last word on the path about `id` takes it out. -/
def Hides (path : List SessionEntry) (id : EntryId) : Prop :=
  ∃ pre e post, path = pre ++ e :: post ∧ e.hides id ∧ ∀ x ∈ post, x.changeTarget? ≠ some id

/-- An entry that brings none of `ids` back. -/
def SessionEntry.Spares (ids : List EntryId) (e : SessionEntry) : Prop :=
  ∀ id ∈ ids, e.changeTarget? = some id → e.hides id

namespace Hides

variable {path new : List SessionEntry} {e : SessionEntry} {id : EntryId}

theorem of_last (h : e.hides id) : Hides (path ++ [e]) id :=
  ⟨path, e, [], rfl, h, by simp⟩

theorem concat (h : Hides path id) (he : e.changeTarget? = some id → e.hides id) :
    Hides (path ++ [e]) id := by
  by_cases htarget : e.changeTarget? = some id
  · exact of_last (he htarget)
  · obtain ⟨pre, edit, post, rfl, hedit, hpost⟩ := h
    refine ⟨pre, edit, post ++ [e], by simp, hedit, fun x hx => ?_⟩
    rcases List.mem_append.mp hx with hx | hx
    · exact hpost x hx
    · rw [List.mem_singleton.mp hx]
      exact htarget

theorem append (h : Hides path id) (hnew : ∀ e ∈ new, e.changeTarget? = some id → e.hides id) :
    Hides (path ++ new) id := by
  induction new using List.reverseRecOn with
  | nil => simpa using h
  | append_singleton new e ih =>
    rw [← append_assoc]
    exact (ih fun x hx => hnew x (by simp [hx])).concat (hnew e (by simp))

/-- **A hidden entry contributes nothing.** -/
theorem messages (h : Hides path id) {baseline : ContextChanges} {p : ProjectedSessionEntry}
    (hp : p ∈ (projectPath (path.foldl applyContextChange baseline) path).entries)
    (hid : p.sourceEntry.id = id) : p.messages = [] := by
  obtain ⟨pre, edit, post, hpath, ⟨curation, hkind⟩, hpost⟩ := h
  obtain ⟨i, hi, rfl⟩ := List.mem_iff_getElem.mp hp
  have hmessages := messages_of_last_change hpath
    (by simp [SessionEntry.changeTarget?, hkind]) hpost
    (getElem?_eq_getElem hi) hid
  rw [hmessages]
  simp [SessionEntry.prescribes, hkind]

end Hides

namespace LiveManager

/-! ## Appending to the branch -/

/-- The manager's entries are a tree, and what it keeps agrees with them. -/
structure Good (m : LiveManager) : Prop where
  synced : Synced m
  tree : SessionTree m.getEntries

/-- `m'` is `m` with entries appended to its branch that are all `ok`. -/
structure Extends (ok : SessionEntry → Prop) (m m' : LiveManager) : Prop where
  good : Good m'
  branch : ∃ new, m'.getBranch = m.getBranch ++ new ∧ ∀ e ∈ new, ok e
  entries : ∀ e ∈ m.getEntries, e ∈ m'.getEntries

/-- `m'` is `m` with entries appended, all of them to its branch and all `ok`. -/
structure Appends (ok : SessionEntry → Prop) (m m' : LiveManager) : Prop where
  good : Good m'
  legacy : m'.legacyPruneChanges = m.legacyPruneChanges
  appended : ∃ new, m'.getBranch = m.getBranch ++ new ∧
    m'.getEntries = m.getEntries ++ new ∧ ∀ e ∈ new, ok e

variable {m m' m'' : LiveManager} {env : Environment}
  {ok ok' : SessionEntry → Prop} {ids : List EntryId}
  {migrate : List FileEntry → List FileEntry × Bool}

theorem Appends.refl (h : Good m) : Appends ok m m :=
  ⟨h, rfl, ⟨[], by simp, by simp, by simp⟩⟩

theorem Appends.trans (h : Appends ok m m') (h' : Appends ok m' m'') : Appends ok m m'' := by
  obtain ⟨new, hbranch, hentries, hnew⟩ := h.appended
  obtain ⟨new', hbranch', hentries', hnew'⟩ := h'.appended
  refine ⟨h'.good, h'.legacy.trans h.legacy, ⟨new ++ new', ?_, ?_, ?_⟩⟩
  · rw [hbranch', hbranch, append_assoc]
  · rw [hentries', hentries, append_assoc]
  · intro e he
    rcases List.mem_append.mp he with he | he
    · exact hnew e he
    · exact hnew' e he

theorem Appends.mono (h : Appends ok m m') (himp : ∀ e, ok e → ok' e) : Appends ok' m m' := by
  obtain ⟨new, hbranch, hentries, hnew⟩ := h.appended
  exact ⟨h.good, h.legacy, ⟨new, hbranch, hentries, fun e he => himp e (hnew e he)⟩⟩

theorem Appends.extends (h : Appends ok m m') : Extends ok m m' := by
  obtain ⟨new, hbranch, hentries, hnew⟩ := h.appended
  refine ⟨h.good, ⟨new, hbranch, hnew⟩, fun e he => ?_⟩
  rw [hentries]
  exact mem_append_left _ he

theorem Extends.refl (h : Good m) : Extends ok m m :=
  ⟨h, ⟨[], by simp, by simp⟩, fun _ he => he⟩

theorem Extends.trans (h : Extends ok m m') (h' : Extends ok m' m'') : Extends ok m m'' := by
  obtain ⟨new, hbranch, hnew⟩ := h.branch
  obtain ⟨new', hbranch', hnew'⟩ := h'.branch
  refine ⟨h'.good, ⟨new ++ new', by rw [hbranch', hbranch, append_assoc], ?_⟩,
    fun e he => h'.entries e (h.entries e he)⟩
  intro e he
  rcases List.mem_append.mp he with he | he
  · exact hnew e he
  · exact hnew' e he

variable {e : SessionEntry}

theorem Extends.mem_branch (h : Extends ok m m') (he : e ∈ m.getBranch) : e ∈ m'.getBranch := by
  obtain ⟨new, hbranch, -⟩ := h.branch
  rw [hbranch]
  exact mem_append_left _ he

theorem Extends.hides (h : Extends (SessionEntry.Spares ids) m m')
    {id : EntryId} (hid : id ∈ ids) (hm : Hides m.getBranch id) : Hides m'.getBranch id := by
  obtain ⟨new, hbranch, hnew⟩ := h.branch
  rw [hbranch]
  exact hm.append fun e he => hnew e he id hid

theorem leafId_appendEntry (m : LiveManager) (e : SessionEntry) :
    (m.appendEntry e).1.leafId = some e.id := by
  rw [appendEntry, persistEntry_eq]

theorem Good.nextId_notMem (h : Good m) (hfresh : env.Fresh) :
    env.generateId m.byId.keys ∉ m.getEntries.map SessionEntry.id :=
  fun hc => hfresh _ ((mem_keys_byId h.synced).mpr hc)

variable {kind : EntryKind}

/-- **An appended entry is the new end of the branch.** -/
theorem getBranch_appended (h : Good m) (hfresh : env.Fresh) (hsynced : Synced m')
    (hentries : m'.getEntries = m.getEntries ++ [m.newEntry env kind])
    (hleaf : m'.leafId = some (m.newEntry env kind).id) :
    m'.getBranch = m.getBranch ++ [m.newEntry env kind] := by
  have hnew := h.nextId_notMem hfresh
  rw [getBranch, hsynced.walk_eq, getBranch, h.synced.walk_eq, hleaf, hentries]
  refine ancestry_concat (h.tree.parent_ne hnew) fun hc => hnew ?_
  exact h.synced.leaf _ (by simpa [newEntry] using hc)

theorem appends_appended (h : Good m) (hfresh : env.Fresh) (hsynced : Synced m')
    (hgrown : GrownFrom m.getEntries m'.getEntries)
    (hlegacy : m'.legacyPruneChanges = m.legacyPruneChanges)
    (hentries : m'.getEntries = m.getEntries ++ [m.newEntry env kind])
    (hleaf : m'.leafId = some (m.newEntry env kind).id) (hok : ok (m.newEntry env kind)) :
    Appends ok m m' :=
  ⟨⟨hsynced, hgrown.tree h.tree⟩, hlegacy, ⟨[m.newEntry env kind],
    getBranch_appended h hfresh hsynced hentries hleaf, hentries, by simpa using hok⟩⟩

theorem legacy_appendEntry (m : LiveManager) (e : SessionEntry) :
    (m.appendEntry e).1.legacyPruneChanges = m.legacyPruneChanges := by
  rw [appendEntry, persistEntry_eq]

section

variable (h : Good m) (hfresh : env.Fresh)

include h hfresh

theorem appends_append
    (hkind : (m.newEntry env kind).isLabelOrPrune = false)
    (hok : ok (m.newEntry env kind)) : Appends ok m (m.append env kind).1 :=
  appends_appended h hfresh (synced_appendEntry h.synced hkind)
    (grown_append h.synced hfresh hkind) (legacy_appendEntry _ _)
    (getEntries_appendEntry _ _) (leafId_appendEntry _ _) hok

theorem extends_append
    (hkind : (m.newEntry env kind).isLabelOrPrune = false)
    (hok : ok (m.newEntry env kind)) : Extends ok m (m.append env kind).1 :=
  (appends_append h hfresh hkind hok).extends

theorem appends_appendAll
    {kinds : List EntryKind} (hkinds : ∀ kind ∈ kinds, ∀ e : SessionEntry,
      e.kind = kind → e.isLabelOrPrune = false ∧ ok e) :
    Appends ok m (m.appendAll env kinds).1 := by
  induction kinds generalizing m with
  | nil => exact .refl h
  | cons kind kinds ih =>
    have hone := hkinds kind (by simp) (m.newEntry env kind) rfl
    have hstep : Appends ok m (m.append env kind).1 := appends_append h hfresh hone.1 hone.2
    exact hstep.trans (ih hstep.good fun k hk => hkinds k (by simp [hk]))

theorem appends_label (targetId : EntryId)
    (label : Option String) (hok : ok (m.newEntry env (.label targetId label))) :
    Appends ok m
      (m.perform migrate env (.appendLabelChange targetId label)).manager := by
  have hsynced : Synced (m.perform migrate env (.appendLabelChange targetId label)).manager :=
    synced_perform h.synced _
  have hgrown : GrownFrom m.getEntries
      (m.perform migrate env (.appendLabelChange targetId label)).manager.getEntries :=
    grown_perform h.synced hfresh rfl
  unfold perform at hsynced hgrown ⊢
  simp only at hsynced hgrown ⊢
  split
  · exact .refl h
  case isFalse hhas =>
    rw [if_neg hhas] at hsynced hgrown
    exact appends_appended h hfresh hsynced hgrown (legacy_appendEntry m _)
      (getEntries_appendEntry m _) (leafId_appendEntry m _) hok

end

/-! ## Operations -/

/-- A write to the branch that changes none of `ids`. -/
def Operation.spares (ids : List EntryId) : Operation → Bool
  | .read | .append _ _ | .appendCompaction _ _ _ _ _
  | .appendLabelChange _ _ => true
  | .appendContextEdit targetId _ _ | .appendContextEditCancel targetId =>
    decide (targetId ∉ ids)
  | .appendContextChanges changes =>
    changes.all fun change => decide (change.targetId ∉ ids)
  | _ => false

theorem spares_of_none (h : e.changeTarget? = none) : e.Spares ids := by
  intro id _ htarget
  rw [h] at htarget
  cases htarget

theorem spares_of_notMem {targetId : EntryId} (h : e.changeTarget? = some targetId)
    (hnot : targetId ∉ ids) : e.Spares ids := by
  intro id hid htarget
  cases h.symm.trans htarget
  exact absurd hid hnot

/-- An entry that edits nothing but entries of `m`. -/
def Targets (m : LiveManager) (e : SessionEntry) : Prop :=
  ∀ t ∈ e.changeTarget?, t ∈ m.getEntries.map SessionEntry.id

theorem targets_of_get? (h : Good m) {id : EntryId} (htarget : e.changeTarget? = some id)
    (hfound : ∃ target, m.byId.get? id = some target) : m.Targets e := by
  intro t ht
  obtain ⟨target, hget⟩ := hfound
  rw [h.synced.byId] at hget
  rw [htarget, Option.mem_some_iff] at ht
  rw [← ht, ← (lookup_mem hget).2]
  exact mem_map_of_mem (lookup_mem hget).1

theorem targets_of_none (h : e.changeTarget? = none) : m.Targets e := by
  intro t ht
  rw [h] at ht
  cases ht

theorem appends_perform (h : Good m) (hfresh : env.Fresh) {op : Operation}
    (hop : op.spares ids = true) :
    Appends (fun e => e.Spares ids ∧ m.Targets e) m
      (m.perform migrate env op).manager := by
  cases op with
  | read =>
    have hread : m.getContextChanges.2 = m ∨ ∃ cache,
        m.getContextChanges.2 = { m with contextChangesCache := cache } := by
      unfold getContextChanges
      simp only
      split
      · exact .inr ⟨_, rfl⟩
      · split
        · exact .inl rfl
        · exact .inr ⟨_, rfl⟩
    have hsynced : Synced (m.perform migrate env .read).manager := synced_perform h.synced .read
    change Synced m.getContextChanges.2 at hsynced
    show Appends _ m m.getContextChanges.2
    rcases hread with heq | ⟨cache, heq⟩
    · rw [heq]
      exact .refl h
    · rw [heq] at hsynced ⊢
      exact ⟨⟨hsynced, h.tree⟩, rfl, ⟨[], (append_nil _).symm, (append_nil _).symm, by simp⟩⟩
  | append kind plain =>
    refine appends_append h hfresh ?_ ⟨spares_of_none ?_, targets_of_none ?_⟩ <;>
      cases kind <;> first | rfl | cases plain
  | appendCompaction summary first tokens details fromHook =>
    exact appends_append h hfresh rfl
      ⟨spares_of_none rfl, targets_of_none rfl⟩
  | appendContextEdit targetId replacement curation =>
    have hnot : targetId ∉ ids := of_decide_eq_true hop
    unfold perform
    simp only
    split
    · exact .refl h
    case h_2 normalized hok =>
      exact appends_append h hfresh rfl ⟨spares_of_notMem rfl hnot,
        targets_of_get? h rfl (target_of_validateContextEdit hok)⟩
  | appendContextEditCancel targetId =>
    have hnot : targetId ∉ ids := of_decide_eq_true hop
    unfold perform
    simp only
    split
    · exact .refl h
    case h_2 target hok =>
      exact appends_append h hfresh rfl ⟨spares_of_notMem rfl hnot,
        targets_of_get? h rfl ⟨target, target_of_getContextEditTarget hok⟩⟩
  | appendLabelChange targetId label =>
    exact appends_label h hfresh targetId label
      ⟨spares_of_none rfl, targets_of_none rfl⟩
  | appendContextChanges changes =>
    have hnot : ∀ change ∈ changes, change.targetId ∉ ids := by
      simpa [Operation.spares] using hop
    unfold perform
    simp only
    split
    · exact .refl h
    case h_2 kinds hkinds =>
      refine appends_appendAll h hfresh fun kind hk e he => ?_
      obtain ⟨change, hchange, hok⟩ := ok_of_mapM hkinds kind hk
      have hkind := kind_of_validateContextChange hok
      have htarget : e.changeTarget? = some change.targetId := by
        rcases hkind with rfl | ⟨replacement, curation, rfl⟩ <;>
          simp [SessionEntry.changeTarget?, he]
      exact ⟨not_label_of_change hkind e he, spares_of_notMem htarget (hnot change hchange),
        targets_of_get? h htarget (target_of_validateContextChange hok)⟩
  | _ => cases hop

theorem extends_perform (h : Good m) (hfresh : env.Fresh) {op : Operation}
    (hop : op.spares ids = true) :
    Extends (SessionEntry.Spares ids) m (m.perform migrate env op).manager :=
  ((appends_perform h hfresh hop).mono fun _ he => he.1).extends

/-! ## One more edit -/

/-- What a projection shows of the entries other than `id`. -/
def shownBesides (id : EntryId) (projection : SessionProjection) : List AgentMessage :=
  (projection.entries.filter fun p => p.sourceEntry.id ≠ id).flatMap ProjectedSessionEntry.messages

theorem projectEntries_hide (changes : ContextChanges) (id : EntryId)
    (curation : Option Curation) (l : List SessionEntry) :
    projectEntries (changes.set id (.edit none curation)) l
      = (projectEntries changes l).map fun p =>
          if p.sourceEntry.id = id then { p with messages := [] } else p := by
  apply ext_getElem
  · simp [projectEntries]
  · intro i hi hi'
    simp only [projectEntries, getElem_mapIdx, getElem_map, InsertionMap.get?_set]
    have hlen : i < l.length := by simpa [projectEntries] using hi
    by_cases hid : l[i].id = id
    · simp [hid, projectContextEntry]
    · simp [hid, eq_comm (a := id)]

theorem flatMap_messages_hide (id : EntryId) (l : List ProjectedSessionEntry) :
    (l.map fun p =>
        if p.sourceEntry.id = id then { p with messages := [] } else p).flatMap
        ProjectedSessionEntry.messages
      = (l.filter fun p => p.sourceEntry.id ≠ id).flatMap ProjectedSessionEntry.messages := by
  induction l with
  | nil => rfl
  | cons p l ih =>
    by_cases hid : p.sourceEntry.id = id
    · simpa [hid] using ih
    · simpa [hid] using ih

/-- **Hiding an entry removes its messages from the context and no others.** -/
theorem prefix_projectPath_hide {path : List SessionEntry} {id : EntryId}
    {curation : Option Curation} {baseline : ContextChanges}
    (he : e.kind = .contextEdit id none curation) :
    shownBesides id (projectPath (path.foldl applyContextChange baseline) path)
      <+: (projectPath ((path ++ [e]).foldl applyContextChange baseline)
        (path ++ [e])).messages := by
  have hselect : selectContextEntries (path ++ [e]) = selectContextEntries path ++ [e] :=
    selectContextEntries_concat (by simp [SessionEntry.isCompaction, he])
  have hchanges : (path ++ [e]).foldl applyContextChange baseline
      = (path.foldl applyContextChange baseline).set id (.edit none curation) := by
    rw [foldl_append]
    simp [applyContextChange, he]
  rw [hchanges]
  unfold projectPath shownBesides
  dsimp only
  rw [hselect, ← flatMap_messages_hide, ← projectEntries_hide]
  generalize (path.foldl applyContextChange baseline).set id (.edit none curation) = changes
  have hsplit : projectEntries changes (selectContextEntries path ++ [e])
      = projectEntries changes (selectContextEntries path)
        ++ (projectEntries changes (selectContextEntries path ++ [e])).drop
          (selectContextEntries path).length := by
    unfold projectEntries
    rw [mapIdx_append]
    simp
  rw [hsplit, flatMap_append]
  exact prefix_append _ _

theorem Good.sessionPath_eq (h : Good m) : m.sessionPath = m.getBranch := by
  rw [h.synced.sessionPath_eq, buildSessionPath_ofLeaf h.synced.leaf, getBranch, h.synced.walk_eq]

theorem Good.buildSessionProjection_eq (h : Good m) :
    m.buildSessionProjection = projectPath (m.getBranch.foldl applyContextChange
          (legacyChanges m.legacyPruneChanges)) m.getBranch := by
  rw [buildSessionProjection, h.sessionPath_eq]
  rfl

theorem Good.missing (h : Good m) {id : EntryId} (hides : Hides m.getBranch id)
    {p : ProjectedSessionEntry} (hp : p ∈ m.buildSessionProjection.entries)
    (hid : p.sourceEntry.id = id) : p.messages = [] := by
  rw [h.buildSessionProjection_eq] at hp
  exact hides.messages hp hid

theorem Good.prefix_hide (h : Good m) (hfresh : env.Fresh) (id : EntryId) :
    shownBesides id m.buildSessionProjection
      <+: (m.append env (.contextEdit id none none)).1.buildSessionProjection.messages := by
  have hextends : Extends (fun _ => True) m (m.append env (.contextEdit id none none)).1 :=
    extends_append h hfresh rfl trivial
  have hbranch : (m.append env (.contextEdit id none none)).1.getBranch
      = m.getBranch ++ [m.newEntry env (.contextEdit id none none)] :=
    getBranch_appended h hfresh hextends.good.synced (getEntries_appendEntry _ _)
      (leafId_appendEntry _ _)
  have hlegacy : (m.append env (.contextEdit id none none)).1.legacyPruneChanges
      = m.legacyPruneChanges := by
    rw [append, appendEntry, persistEntry_eq]
  rw [h.buildSessionProjection_eq, hextends.good.buildSessionProjection_eq, hbranch, hlegacy]
  exact prefix_projectPath_hide rfl

end LiveManager

end ReflectivePi.Session
