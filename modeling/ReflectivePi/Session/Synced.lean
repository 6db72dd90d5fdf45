import ReflectivePi.Lib.LabelledRun
import ReflectivePi.Session.Extraction
import ReflectivePi.Session.Operations

/-!
# Session — Synced

What the live manager keeps is what its entries say: the id index, the
labels, the latest legacy markers, and a cache that is either right or not
asked. So every read is the one computed from the entries and the leaf.
The legacy index keeps restorations that the baseline of a fresh read
drops; nothing that is read tells them apart (`SameReading`).
-/

namespace ReflectivePi.Session

open List Option InsertionMap ParentWalk

/-! ## A kept restoration reads like none -/

/-- The same change, or a restoration against nothing. -/
def SameReading (kept fresh : Option ResolvedContextChange) : Prop :=
  kept = fresh ∨ ∃ p, kept = some (.prune p) ∧ p.state = .included ∧ fresh = none

namespace SameReading

variable {kept fresh : Option ResolvedContextChange}

theorem contextChangeState (h : SameReading kept fresh) :
    Session.contextChangeState kept = Session.contextChangeState fresh := by
  rcases h with rfl | ⟨p, rfl, hp, rfl⟩
  · rfl
  · simp [Session.contextChangeState, hp]

theorem contextChangeSummary (h : SameReading kept fresh) :
    SessionManager.contextChangeSummary kept = SessionManager.contextChangeSummary fresh := by
  rcases h with rfl | ⟨p, rfl, hp, rfl⟩
  · rfl
  · simp [SessionManager.contextChangeSummary, hp]

theorem projectContextEntry (h : SameReading kept fresh) (e : SessionEntry) :
    Session.projectContextEntry e kept = Session.projectContextEntry e fresh := by
  rcases h with rfl | ⟨p, rfl, hp, rfl⟩
  · rfl
  · simp [Session.projectContextEntry, hp]

end SameReading

/-- Both read alike for every id. -/
def ReadAlike (kept fresh : ContextChanges) : Prop :=
  ∀ id, SameReading (kept.get? id) (fresh.get? id)

variable {kept fresh : ContextChanges}

theorem ReadAlike.applyContextChange (h : ReadAlike kept fresh) (e : SessionEntry) :
    ReadAlike (applyContextChange kept e) (applyContextChange fresh e) := by
  intro id
  unfold Session.applyContextChange
  cases e.kind with
  | contextEdit targetId replacement curation =>
    simp only [get?_set]
    split
    · exact .inl rfl
    · exact h id
  | contextEditCancel targetId =>
    simp only [get?_delete]
    split
    · exact .inl rfl
    · exact h id
  | _ => exact h id

theorem ReadAlike.foldl (h : ReadAlike kept fresh) (path : List SessionEntry) :
    ReadAlike (path.foldl Session.applyContextChange kept)
      (path.foldl Session.applyContextChange fresh) := by
  induction path generalizing kept fresh with
  | nil => exact h
  | cons e rest ih => exact ih (h.applyContextChange e)

/-- One entry of the loop that builds the baseline of a fresh read. -/
def baselineStep (changes : ContextChanges) (e : SessionEntry) : ContextChanges :=
  match e.toPrune? with
  | none => changes
  | some p =>
    match p.state with
    | .included => changes.delete p.targetId
    | _ => changes.set p.targetId (.prune p)

theorem baselineStep_readAlike {legacy : InsertionMap EntryId PruneEntry}
    (h : ∀ id, SameReading ((legacy.get? id).map .prune) (fresh.get? id))
    (e : SessionEntry) (id : EntryId) :
    SameReading (((indexLegacy legacy e).get? id).map .prune)
      ((baselineStep fresh e).get? id) := by
  unfold indexLegacy baselineStep
  cases he : e.toPrune? with
  | none => exact h id
  | some p =>
    simp only [get?_set]
    cases hp : p.state with
    | included =>
      simp only [get?_delete]
      split
      · exact .inr ⟨p, rfl, hp, rfl⟩
      · exact h id
    | _ =>
      simp only [get?_set]
      split
      · exact .inl rfl
      · exact h id

theorem readAlike_legacy (entries : List SessionEntry) :
    ReadAlike (legacyChanges (entries.foldl indexLegacy .empty))
      (legacyBaseline entries) := by
  have hrun : ∀ (l : List SessionEntry)
      (legacy : InsertionMap EntryId PruneEntry) (fresh : ContextChanges),
      (∀ id, SameReading ((legacy.get? id).map .prune) (fresh.get? id)) →
      ∀ id, SameReading (((l.foldl indexLegacy legacy).get? id).map .prune)
        ((l.foldl baselineStep fresh).get? id) := by
    intro l
    induction l with
    | nil => simp
    | cons e rest ih =>
      exact fun legacy fresh h => ih _ _ (baselineStep_readAlike h e)
  intro id
  rw [get?_legacyChanges]
  exact hrun entries .empty .empty (fun id => .inl rfl) id

theorem projectEntries_congr (h : ReadAlike kept fresh) (l : List SessionEntry) :
    projectEntries kept l = projectEntries fresh l := by
  unfold projectEntries
  congr 1
  funext index e
  rw [(h e.id).projectContextEntry e]

theorem projectPath_congr (h : ReadAlike kept fresh) (path : List SessionEntry) :
    projectPath kept path = projectPath fresh path := by
  simp only [projectPath, projectEntries_congr h]

namespace LiveManager

structure Synced (m : LiveManager) : Prop where
  byId : ∀ id, m.byId.get? id = lookup SessionEntry.id m.getEntries id
  labels : m.labelsById = m.getEntries.foldl indexLabel .empty
  timestamps : m.labelTimestampsById = m.getEntries.foldl indexTimestamp .empty
  legacy : m.legacyPruneChanges = m.getEntries.foldl indexLegacy .empty
  leaf : ∀ id ∈ m.leafId, id ∈ m.getEntries.map SessionEntry.id
  /-- Until another entry is appended the cache is right for its leaf. -/
  cache : ∀ c ∈ m.contextChangesCache, c.entryCount ≤ m.fileEntries.length ∧
      (c.entryCount = m.fileEntries.length → c.changes
        = resolveContextChanges m.getEntries (m.walk c.leafId) (some m.legacyPruneChanges))

variable {m m' : LiveManager}

/-- A manager that differs in what no index is about. -/
theorem Synced.congr (h : Synced m) (hentries : m'.fileEntries = m.fileEntries)
    (hbyId : m'.byId = m.byId) (hlabels : m'.labelsById = m.labelsById)
    (htimestamps : m'.labelTimestampsById = m.labelTimestampsById)
    (hlegacy : m'.legacyPruneChanges = m.legacyPruneChanges)
    (hcache : m'.contextChangesCache = m.contextChangesCache)
    (hleaf : ∀ id ∈ m'.leafId, id ∈ m.getEntries.map SessionEntry.id) : Synced m' := by
  have hget : m'.getEntries = m.getEntries := by rw [getEntries, hentries]; rfl
  have hwalk : ∀ k, m'.walk k = m.walk k := by
    intro k
    rw [walk, walk, hget, hbyId]
  refine ⟨?_, ?_, ?_, ?_, ?_, ?_⟩
  · rw [hbyId, hget]
    exact h.byId
  · rw [hlabels, hget]
    exact h.labels
  · rw [htimestamps, hget]
    exact h.timestamps
  · rw [hlegacy, hget]
    exact h.legacy
  · rw [hget]
    exact hleaf
  · rw [hcache, hentries, hget, hlegacy]
    simp only [hwalk]
    exact h.cache

/-! ## Reads -/

theorem Synced.walk_eq (h : Synced m) (k : Option EntryId) :
    m.walk k = branchPath m.getEntries k := by
  have hindex : m.byId.get? = lookup SessionEntry.id m.getEntries := funext h.byId
  rw [walk, hindex]
  rfl

theorem Synced.sessionPath_eq (h : Synced m) :
    m.sessionPath = buildSessionPath m.getEntries (.ofLeaf m.leafId) := by
  unfold sessionPath
  cases m.leafId with
  | none => rfl
  | some id =>
    simp only [LeafArg.ofLeaf, buildSessionPath, h.byId id]
    cases lookup SessionEntry.id m.getEntries id with
    | none => exact h.walk_eq _
    | some e => exact h.walk_eq _

theorem Synced.readAlike (h : Synced m) (path : List SessionEntry) :
    ReadAlike (resolveContextChanges m.getEntries path (some m.legacyPruneChanges))
      (resolveContextChanges m.getEntries path none) := by
  rw [h.legacy]
  exact (readAlike_legacy m.getEntries).foldl path

/-- **The cache is never stale.** -/
theorem Synced.getContextChanges_eq (h : Synced m) :
    m.getContextChanges.1 = m.freshContextChanges := by
  unfold getContextChanges
  split
  · rfl
  · rename_i c hc
    split
    · rename_i hkey
      obtain ⟨-, hright⟩ := h.cache c hc
      rw [hright hkey.1, hkey.2]
      rfl
    · rfl

theorem get?_foldl_byId (l : List SessionEntry) (id : EntryId) :
    (l.foldl (fun byId e => byId.set e.id e)
      (.empty : InsertionMap EntryId SessionEntry)).get? id
      = lookup SessionEntry.id l id := by
  induction l using List.reverseRecOn with
  | nil => rfl
  | append_singleton l e ih =>
    rw [foldl_append, lookup_concat, foldl_cons, foldl_nil, get?_set, ih]

theorem foldl_indexEntry (l : List SessionEntry) (m : LiveManager) :
    l.foldl indexEntry m = { m with
      byId := l.foldl (fun byId e => byId.set e.id e) m.byId
      leafId := lastKey SessionEntry.id m.leafId l
      labelsById := l.foldl indexLabel m.labelsById
      labelTimestampsById := l.foldl indexTimestamp m.labelTimestampsById
      legacyPruneChanges := l.foldl indexLegacy m.legacyPruneChanges } := by
  induction l generalizing m with
  | nil => rfl
  | cons e rest ih =>
    rw [foldl_cons, ih]
    rfl

theorem synced_buildIndex (m : LiveManager) : Synced m.buildIndex := by
  have hbuild := foldl_indexEntry m.getEntries { m with
      byId := .empty
      labelsById := .empty
      labelTimestampsById := .empty
      legacyPruneChanges := .empty
      contextChangesCache := none
      leafId := none }
  rw [buildIndex, hbuild]
  refine ⟨get?_foldl_byId m.getEntries, rfl, rfl, rfl, ?_, by simp⟩
  intro id hid
  show id ∈ m.getEntries.map SessionEntry.id
  revert hid
  generalize m.getEntries = l
  induction l using List.reverseRecOn with
  | nil =>
    intro hid
    cases hid
  | append_singleton l e _ =>
    intro hid
    simp only [lastKey, foldl_append, foldl_cons, foldl_nil, mem_some_iff] at hid
    rw [← hid]
    simp

theorem synced_startSession (env : Environment) (options : NewSessionOptions)
    (m : LiveManager) : Synced (m.startSession env options) := by
  refine ⟨fun id => rfl, rfl, rfl, rfl, ?_, ?_⟩
  · intro id hid
    cases hid
  · intro c hc
    cases hc

/-! ## Appending -/

theorem persistEntry_eq (m : LiveManager) (e : SessionEntry) :
    (m.persistEntry e).1 = { m with flushed := (m.persistEntry e).1.flushed } := by
  unfold persistEntry
  split
  · split
    · split <;> rfl
    · split <;> rfl
  · rfl

variable {e : SessionEntry}

theorem getEntries_append (hentries : m'.fileEntries = m.fileEntries ++ [.entry e]) :
    m'.getEntries = m.getEntries ++ [e] := by
  rw [getEntries, hentries, filterMap_append]
  rfl

theorem Synced.append (h : Synced m) (hprune : e.toPrune? = none)
    (hentries : m'.fileEntries = m.fileEntries ++ [.entry e]) (hbyId : m'.byId = m.byId.set e.id e)
    (hlabels : m'.labelsById = indexLabel m.labelsById e)
    (htimestamps : m'.labelTimestampsById = indexTimestamp m.labelTimestampsById e)
    (hlegacy : m'.legacyPruneChanges = m.legacyPruneChanges)
    (hcache : m'.contextChangesCache = m.contextChangesCache)
    (hleaf : m'.leafId = some e.id) : Synced m' := by
  have hget := getEntries_append hentries
  refine ⟨?_, ?_, ?_, ?_, ?_, ?_⟩
  · intro id
    rw [hbyId, hget, lookup_concat, get?_set, h.byId]
  · rw [hlabels, hget, foldl_append, h.labels]
    rfl
  · rw [htimestamps, hget, foldl_append, h.timestamps]
    rfl
  · rw [hlegacy, hget, foldl_append, h.legacy]
    show _ = indexLegacy _ e
    rw [indexLegacy, hprune]
  · intro id hid
    rw [hleaf, mem_some_iff] at hid
    rw [hget, ← hid]
    simp
  · -- the cache is for fewer entries now
    intro c hc
    rw [hcache] at hc
    have hle := (h.cache c hc).1
    rw [hentries, length_append, length_singleton]
    omega

theorem toPrune?_of_not (he : e.isLabelOrPrune = false) : e.toPrune? = none := by
  unfold SessionEntry.isLabelOrPrune at he
  unfold SessionEntry.toPrune?
  cases hk : e.kind <;> simp_all

theorem synced_appendEntry (h : Synced m) (he : e.isLabelOrPrune = false) :
    Synced (m.appendEntry e).1 := by
  have htimestamps : indexTimestamp m.labelTimestampsById e = m.labelTimestampsById := by
    unfold SessionEntry.isLabelOrPrune at he
    unfold indexTimestamp
    cases hk : e.kind <;> simp_all
  have heq := persistEntry_eq { m with
    fileEntries := m.fileEntries ++ [FileEntry.entry e]
    byId := m.byId.set e.id e
    leafId := some e.id } e
  refine h.append (toPrune?_of_not he) ?_ ?_ ?_ ?_ ?_ ?_ ?_ <;> rw [appendEntry, heq]
  · rw [indexLabel_of_not he]
  · rw [htimestamps]

theorem synced_appendAll (env : Environment) (h : Synced m)
    {kinds : List EntryKind} (hkinds : ∀ kind ∈ kinds,
      ∀ e : SessionEntry, e.kind = kind → e.isLabelOrPrune = false) :
    Synced (m.appendAll env kinds).1 := by
  induction kinds generalizing m with
  | nil => exact h
  | cons kind kinds ih =>
    refine ih (synced_appendEntry h ?_) fun k hk => hkinds k (by simp [hk])
    exact hkinds kind (by simp) _ rfl

/-! ## Every operation -/

section

variable {migrate : List FileEntry → List FileEntry × Bool}
  {env : Environment}

theorem synced_newSession (h : Synced m) (options : NewSessionOptions) :
    Synced (m.newSession env options).manager := by
  unfold newSession
  split
  · exact h
  · exact synced_startSession env options m

theorem synced_loadEntries (options : NewSessionOptions)
    (entries : List FileEntry) (m : LiveManager) :
    Synced (m.loadEntries migrate env options entries).1 := by
  unfold loadEntries
  split
  · exact synced_buildIndex _
  · exact synced_buildIndex _

theorem synced_setSessionFile (h : Synced m) (path : String) (file : SessionFile) :
    Synced (m.setSessionFile migrate env path file).manager := by
  unfold setSessionFile
  split
  · exact (synced_startSession env {} _).congr rfl rfl rfl rfl rfl rfl
      (synced_startSession env {} _).leaf
  · split
    · exact h.congr rfl rfl rfl rfl rfl rfl h.leaf
    · exact (synced_startSession env {} _).congr rfl rfl rfl rfl rfl rfl
        (synced_startSession env {} _).leaf
  · rename_i entries _
    have hload : Synced ({ m with sessionFile := some path }.loadEntries
        migrate env {} entries).1 := synced_loadEntries {} entries _
    exact hload.congr rfl rfl rfl rfl rfl rfl hload.leaf

theorem Synced.withFlushed (h : Synced m) (flushed : Bool) : Synced { m with flushed } :=
  h.congr rfl rfl rfl rfl rfl rfl h.leaf

theorem synced_createBranchedSession (h : Synced m) (leafId : EntryId) :
    Synced (m.createBranchedSession env leafId).manager := by
  unfold createBranchedSession
  simp only
  split
  · exact h
  · have hbranched : Synced (m.branched env (m.walk (some leafId))) := synced_buildIndex _
    unfold writeBranched
    split
    · split
      · exact hbranched.withFlushed true
      · exact hbranched.withFlushed false
    · exact hbranched

theorem ok_of_bind {ε α β : Type} {x : Except ε α} {f : α → Except ε β} {b : β}
    (h : x >>= f = .ok b) : ∃ a, x = .ok a ∧ f a = .ok b := by
  cases x with
  | error error => cases h
  | ok a => exact ⟨a, rfl, h⟩

variable {active : List EntryId}

variable {kind : EntryKind} {id : EntryId}

theorem kind_of_validateContextChange {change : SessionManager.ContextChange}
    (hkind : m.validateContextChange active change = .ok kind) :
    kind = .contextEditCancel change.targetId ∨ ∃ replacement curation,
        kind = .contextEdit change.targetId replacement curation := by
  unfold validateContextChange at hkind
  cases hs : change.state with
  | included =>
    rw [hs] at hkind
    obtain ⟨_, -, hok⟩ := ok_of_bind hkind
    exact .inl (Except.ok.inj hok).symm
  | _ =>
    rw [hs] at hkind
    obtain ⟨_, -, hok⟩ := ok_of_bind hkind
    exact .inr ⟨_, _, (Except.ok.inj hok).symm⟩

theorem ok_of_mapM {ε α β : Type} {f : α → Except ε β} {l : List α} {r : List β}
    (h : l.mapM f = .ok r) : ∀ b ∈ r, ∃ a ∈ l, f a = .ok b := by
  induction l generalizing r with
  | nil =>
    cases h
    simp
  | cons a l ih =>
    rw [mapM_cons] at h
    obtain ⟨first, hfirst, hrest⟩ := ok_of_bind h
    obtain ⟨rest, hmap, hok⟩ := ok_of_bind hrest
    rw [← Except.ok.inj hok]
    intro b hb
    rcases List.mem_cons.mp hb with rfl | hb
    · exact ⟨a, by simp, hfirst⟩
    · obtain ⟨other, hother, hb⟩ := ih hmap b hb
      exact ⟨other, by simp [hother], hb⟩

theorem change_of_mapM {changes : List SessionManager.ContextChange} {kinds : List EntryKind}
    (hkinds : changes.mapM (m.validateContextChange active) = .ok kinds) :
    ∀ kind ∈ kinds, ∃ change ∈ changes, kind = .contextEditCancel change.targetId ∨
        ∃ replacement curation, kind = .contextEdit change.targetId replacement curation := by
  intro kind hkind
  obtain ⟨change, hchange, hok⟩ := ok_of_mapM hkinds kind hkind
  exact ⟨change, hchange, kind_of_validateContextChange hok⟩

theorem target_of_getContextEditTarget
    (h : m.getContextEditTarget id active = .ok e) : m.byId.get? id = some e := by
  unfold getContextEditTarget at h
  cases hget : m.byId.get? id with
  | none =>
    rw [hget] at h
    cases h
  | some target =>
    rw [hget] at h
    dsimp only at h
    split at h
    · cases h
    · split at h
      · cases h
      · rw [Except.ok.inj h]

theorem target_of_validateContextEdit {replacement : Option Content}
    {curation : Option Curation} {normalized : Option Content}
    (h : m.validateContextEdit id replacement curation active = .ok normalized) :
    ∃ e, m.byId.get? id = some e := by
  obtain ⟨e, he, -⟩ := ok_of_bind h
  exact ⟨e, target_of_getContextEditTarget he⟩

theorem target_of_validateContextChange {change : SessionManager.ContextChange}
    (h : m.validateContextChange active change = .ok kind) :
    ∃ e, m.byId.get? change.targetId = some e := by
  unfold validateContextChange at h
  cases hs : change.state with
  | included =>
    rw [hs] at h
    obtain ⟨e, he, -⟩ := ok_of_bind h
    exact ⟨e, target_of_getContextEditTarget he⟩
  | _ =>
    rw [hs] at h
    obtain ⟨_, he, -⟩ := ok_of_bind h
    exact target_of_validateContextEdit he

theorem not_label_of_change {targetId : EntryId}
    (hkind : kind = .contextEditCancel targetId ∨ ∃ replacement curation,
        kind = .contextEdit targetId replacement curation)
    (e : SessionEntry) (he : e.kind = kind) : e.isLabelOrPrune = false := by
  unfold SessionEntry.isLabelOrPrune
  rw [he]
  rcases hkind with rfl | ⟨replacement, curation, rfl⟩ <;> rfl

theorem has_byId (h : Synced m) (hhas : m.byId.has id = true) :
    id ∈ m.getEntries.map SessionEntry.id := by
  by_contra hnot
  rw [InsertionMap.has, h.byId, lookup_eq_none.mpr hnot] at hhas
  cases hhas

theorem synced_branchTo (h : Synced m) {leafId : Option EntryId}
    (hleaf : ∀ id ∈ leafId, id ∈ m.getEntries.map SessionEntry.id) :
    Synced { m with leafId } := h.congr rfl rfl rfl rfl rfl rfl hleaf

/-- **Every operation keeps the manager synced.** -/
theorem synced_perform (h : Synced m) (op : Operation) :
    Synced (m.perform migrate env op).manager := by
  cases op with
  | read =>
    show Synced m.getContextChanges.2
    have hmiss : Synced { m with
        contextChangesCache := some
          ⟨m.fileEntries.length, m.leafId, m.freshContextChanges⟩ } := by
      refine ⟨h.byId, h.labels, h.timestamps, h.legacy, h.leaf, ?_⟩
      intro c hc
      rw [mem_some_iff] at hc
      rw [← hc]
      exact ⟨Nat.le_refl _, fun _ => rfl⟩
    unfold getContextChanges
    split
    · exact hmiss
    · split
      · exact h
      · exact hmiss
  | append kind plain =>
    refine synced_appendEntry h ?_
    cases kind <;> first | rfl | cases plain
  | appendCompaction summary first tokens details fromHook =>
    exact synced_appendEntry h rfl
  | appendLabelChange targetId label =>
    unfold perform
    simp only
    split
    · exact h
    · generalize he : m.newEntry env (.label targetId label) = e
      have hkind : e.toPrune? = none := by
        rw [← he]
        rfl
      have heq := persistEntry_eq { m with
        fileEntries := m.fileEntries ++ [FileEntry.entry e]
        byId := m.byId.set e.id e
        leafId := some e.id } e
      refine h.append hkind ?_ ?_ ?_ ?_ ?_ ?_ ?_ <;>
        simp only [appendEntry] <;> rw [heq]
  | appendContextChanges changes =>
    unfold perform
    simp only
    split
    · exact h
    · rename_i kinds hkinds
      refine synced_appendAll env h fun kind hk e he => ?_
      obtain ⟨change, -, hkind⟩ := change_of_mapM hkinds kind hk
      exact not_label_of_change hkind e he
  | branch id =>
    unfold perform
    simp only
    split
    · exact h
    · rename_i hhas
      refine synced_branchTo h fun x hx => ?_
      rw [mem_some_iff] at hx
      rw [← hx]
      exact has_byId h (by simpa using hhas)
  | resetLeaf => exact synced_branchTo h (by simp)
  | branchWithSummary id summary =>
    unfold perform
    cases id with
    | none =>
      exact synced_appendEntry (synced_branchTo h (by simp)) rfl
    | some id =>
      simp only
      split
      · exact h
      · rename_i hhas
        refine synced_appendEntry (synced_branchTo h fun x hx => ?_) rfl
        rw [mem_some_iff] at hx
        rw [← hx]
        exact has_byId h (by simpa using hhas)
  | createBranchedSession leafId => exact synced_createBranchedSession h leafId
  | newSession options => exact synced_newSession h options
  | setSessionFile path file => exact synced_setSessionFile h path file
  | _ =>
    unfold perform
    simp only
    split
    · exact h
    · exact synced_appendEntry h rfl

theorem synced_blank (persist : Bool) : Synced (blank persist) := by
  refine ⟨fun id => rfl, rfl, rfl, rfl, ?_, ?_⟩
  · intro id hid
    cases hid
  · intro c hc
    cases hc

theorem synced_construct (persist : Bool) (source : Source) :
    Synced (construct migrate env persist source).manager := by
  unfold construct
  cases source with
  | file path file => exact synced_setSessionFile (synced_blank persist) path file
  | entries options entries =>
    simp only
    split
    · exact synced_newSession (synced_blank persist) options
    · exact synced_loadEntries options entries _
  | new options => exact synced_newSession (synced_blank persist) options

end

/-- The managers reached from a constructor by any operations, whatever
the environment returns and the disk holds. -/
abbrev Reachable (migrate : List FileEntry → List FileEntry × Bool) : LiveManager → Prop :=
  Run (fun m => ∃ env persist source, (construct migrate env persist source).error = none ∧
      m = (construct migrate env persist source).manager)
    (fun m (label : Environment × Operation) =>
      some (m.perform migrate label.1 label.2).manager)
    (fun _ _ => True)

theorem Reachable.synced {migrate : List FileEntry → List FileEntry × Bool}
    (h : Reachable migrate m) : Synced m := by
  refine h.invariant ?_ ?_
  · rintro _ ⟨env, persist, source, -, rfl⟩
    exact synced_construct persist source
  · intro m label m' hm _ hstep
    cases hstep
    exact synced_perform hm label.2

end LiveManager

end ReflectivePi.Session
