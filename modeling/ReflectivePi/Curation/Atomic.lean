import ReflectivePi.Curation.Batch
import ReflectivePi.Session.Extension

/-!
# Curation — Atomic

A batch of curation changes on a live manager: it fails before anything is appended,
or it appends one marker for each change. What the markers leave in force on an entry
is what the last change of that entry asks for.
-/

namespace ReflectivePi.Curation

open List Option InsertionMap Session LiveManager

/-- The ids hold those of the session's entries. -/
def Covers (keys : List EntryId) (m : LiveManager) : Prop :=
  ∀ e ∈ m.getEntries, e.id ∈ keys

/-- An id that is generated beside those of the entries is named by no entry, as its
parent or as what a legacy marker is about. -/
structure Unnamed (env : Environment) (m : LiveManager) : Prop where
  parents : ∀ keys, Covers keys m → ∀ e ∈ m.getEntries, e.parentId ≠ some (env.generateId keys)
  prunes : ∀ keys, Covers keys m → ∀ e ∈ m.getEntries, ∀ p ∈ e.toPrune?,
    p.targetId ≠ env.generateId keys

variable {env : Environment} {m m' : LiveManager} {new : List SessionEntry}
  {kinds : List EntryKind} {changes : List SessionManager.ContextChange} {t : EntryId}

/-! ## Appended markers -/

/-- `m'` is `m` with the new entries at the end of its branch, which nothing named. -/
structure AppendedTo (env : Environment) (m m' : LiveManager) (new : List SessionEntry) :
    Prop where
  synced : Synced m'
  unnamed : Unnamed env m'
  legacy : m'.legacyPruneChanges = m.legacyPruneChanges
  entries : m'.getEntries = m.getEntries ++ new
  branch : m'.getBranch = m.getBranch ++ new
  leaf : m'.leafId = (new.getLast?.map SessionEntry.id).or m.leafId
  fresh : ∀ e ∈ new, m.legacyPruneChanges.get? e.id = none

theorem AppendedTo.refl (h : Synced m) (hun : Unnamed env m) : AppendedTo env m m [] :=
  ⟨h, hun, rfl, by simp, by simp, by simp, by simp⟩

theorem AppendedTo.trans {m'' : LiveManager} {new' : List SessionEntry}
    (h : AppendedTo env m m' new) (h' : AppendedTo env m' m'' new') :
    AppendedTo env m m'' (new ++ new') := by
  refine ⟨h'.synced, h'.unnamed, h'.legacy.trans h.legacy, ?_, ?_, ?_, ?_⟩
  · rw [h'.entries, h.entries, append_assoc]
  · rw [h'.branch, h.branch, append_assoc]
  · rw [h'.leaf, h.leaf, getLast?_append]
    cases new'.getLast? <;> rfl
  · intro e he
    rcases List.mem_append.mp he with he | he
    · exact h.fresh e he
    · rw [← h.legacy]
      exact h'.fresh e he

theorem covers_byId (h : Synced m) : Covers m.byId.keys m :=
  fun _ he => (mem_keys_byId h).mpr (mem_map_of_mem he)

theorem get?_legacy_generated (h : Synced m) (hun : Unnamed env m) :
    m.legacyPruneChanges.get? (env.generateId m.byId.keys) = none := by
  cases hget : m.legacyPruneChanges.get? (env.generateId m.byId.keys) with
  | none => rfl
  | some p =>
    rw [h.legacy] at hget
    obtain ⟨htarget, e, he, hp⟩ := legacy_marker hget
    exact absurd htarget (hun.prunes _ (covers_byId h) e he p hp)

variable {kind : EntryKind}

theorem appendedTo_append (h : Synced m) (hfresh : env.Fresh) (hun : Unnamed env m)
    (hkind : (m.newEntry env kind).isLabelOrPrune = false) :
    AppendedTo env m (m.append env kind).1 [m.newEntry env kind] := by
  have hsynced : Synced (m.append env kind).1 := synced_appendEntry h hkind
  have hentries : (m.append env kind).1.getEntries = m.getEntries ++ [m.newEntry env kind] :=
    getEntries_appendEntry m _
  have hleaf : (m.append env kind).1.leafId = some (m.newEntry env kind).id :=
    leafId_appendEntry m _
  have hcovers := covers_byId h
  -- a leaf is one of the entries, so the new id is not its id
  have hparent : (m.newEntry env kind).parentId ≠ some (m.newEntry env kind).id := by
    intro hc
    have hmem := h.leaf _ hc
    exact hfresh _ ((mem_keys_byId h).mpr hmem)
  refine ⟨hsynced, ⟨?_, ?_⟩, legacy_appendEntry m _, hentries, ?_, ?_, ?_⟩
  · intro keys hkeys e he
    have hold : Covers keys m := fun x hx => hkeys x (by rw [hentries]; simp [hx])
    rw [hentries, mem_append, mem_singleton] at he
    rcases he with he | rfl
    · exact hun.parents keys hold e he
    · intro hc
      have hmem := h.leaf _ hc
      obtain ⟨x, hx, hid⟩ := List.mem_map.mp hmem
      exact hfresh keys (hid ▸ hold x hx)
  · intro keys hkeys e he p hp
    have hold : Covers keys m := fun x hx => hkeys x (by rw [hentries]; simp [hx])
    rw [hentries, mem_append, mem_singleton] at he
    rcases he with he | rfl
    · exact hun.prunes keys hold e he p hp
    · rw [toPrune?_of_not hkind] at hp
      cases hp
  · rw [getBranch, hsynced.walk_eq, getBranch, h.walk_eq, hleaf, hentries]
    exact ParentWalk.ancestry_concat (hun.parents _ hcovers) hparent
  · rw [hleaf]
    rfl
  · intro e he
    rw [List.mem_singleton.mp he]
    exact get?_legacy_generated h hun

theorem appendedTo_appendAll (h : Synced m) (hfresh : env.Fresh) (hun : Unnamed env m)
    (hkinds : ∀ kind ∈ kinds, ∀ e : SessionEntry, e.kind = kind → e.isLabelOrPrune = false) :
    ∃ new, AppendedTo env m (m.appendAll env kinds).1 new ∧ new.map SessionEntry.kind = kinds := by
  induction kinds generalizing m with
  | nil => exact ⟨[], .refl h hun, rfl⟩
  | cons kind kinds ih =>
    have hone := appendedTo_append h hfresh hun
      (hkinds kind mem_cons_self (m.newEntry env kind) rfl)
    obtain ⟨new, hnew, hmap⟩ := ih hone.synced hone.unnamed
      fun k hk => hkinds k (mem_cons_of_mem kind hk)
    exact ⟨_, hone.trans hnew, by rw [map_append, hmap]; rfl⟩

/-! ## What a change writes -/

/-- The payload that a change is written as. -/
def Marks (change : SessionManager.ContextChange) (kind : EntryKind) : Prop :=
  match change.state with
  | .included => kind = .contextEditCancel change.targetId
  | .excluded => kind = .contextEdit change.targetId none none
  | .summarized => ∃ replacement, kind = .contextEdit change.targetId replacement (some .summary) ∧
      ∀ s, change.summary = some s → s ≠ "" → ∃ content, replacement = some content ∧
        contentText content = contextBlockSummaryPrefix ++ s

/-- The last change of the entry. -/
def lastFor : List SessionManager.ContextChange → EntryId → Option SessionManager.ContextChange
  | [], _ => none
  | change :: changes, t =>
    (lastFor changes t).or (if change.targetId = t then some change else none)

/-- What `getPruneState` is asked to return. -/
def askedState : PruneState → Option PruneState
  | .included => none
  | state => some state

theorem contentText_normalize (target : SessionEntry) (text : String) :
    ∃ content, SessionManager.normalizeReplacement target (some (.text text)) = some content ∧
      contentText content = text := by
  have hblocks : contentText (Content.asBlocks (.text text)) = text := by
    rfl
  unfold SessionManager.normalizeReplacement
  split
  · rename_i heq
    cases heq
  · rename_i content heq
    cases heq
    split
    · exact ⟨_, rfl, hblocks⟩
    · exact ⟨_, rfl, hblocks⟩
    · exact ⟨_, rfl, rfl⟩

theorem normalized_of_validate {active : List EntryId} {id : EntryId}
    {replacement normalized : Option Content} {curation : Option Curation}
    (h : m.validateContextEdit id replacement curation active = .ok normalized) :
    ∃ target, normalized = SessionManager.normalizeReplacement target replacement := by
  obtain ⟨target, -, hnormal⟩ := ok_of_bind h
  split at hnormal
  · cases hnormal
  · exact ⟨target, (Except.ok.inj hnormal).symm⟩

variable {change : SessionManager.ContextChange}

theorem marks_of_validate {active : List EntryId}
    (h : m.validateContextChange active change = .ok kind) : Marks change kind := by
  unfold LiveManager.validateContextChange at h
  unfold Marks
  cases hstate : change.state with
  | included =>
    rw [hstate] at h
    obtain ⟨_, -, hok⟩ := ok_of_bind h
    exact (Except.ok.inj hok).symm
  | excluded =>
    rw [hstate] at h
    obtain ⟨replacement, hedit, hok⟩ := ok_of_bind h
    obtain ⟨target, rfl⟩ := normalized_of_validate hedit
    exact (Except.ok.inj hok).symm
  | summarized =>
    rw [hstate] at h
    obtain ⟨replacement, hedit, hok⟩ := ok_of_bind h
    refine ⟨replacement, (Except.ok.inj hok).symm, ?_⟩
    intro s hs hne
    obtain ⟨target, rfl⟩ := normalized_of_validate hedit
    rw [hs]
    simp only [hne, if_false]
    exact contentText_normalize target _

theorem forall₂_of_mapM {ε α β : Type} {f : α → Except ε β} {l : List α} {r : List β}
    (h : l.mapM f = .ok r) : List.Forall₂ (fun a b => f a = .ok b) l r := by
  induction l generalizing r with
  | nil =>
    cases h
    exact .nil
  | cons a l ih =>
    rw [mapM_cons] at h
    obtain ⟨first, hfirst, hrest⟩ := ok_of_bind h
    obtain ⟨rest, hmap, hok⟩ := ok_of_bind hrest
    rw [← Except.ok.inj hok]
    exact .cons hfirst (ih hmap)

theorem Marks.targets (h : Marks change kind) : Targets change.targetId kind := by
  unfold Marks at h
  cases hstate : change.state with
  | included =>
    rw [hstate] at h
    exact .inl h
  | excluded =>
    rw [hstate] at h
    exact .inr ⟨_, _, h⟩
  | summarized =>
    rw [hstate] at h
    obtain ⟨replacement, hkind, -⟩ := h
    exact .inr ⟨_, _, hkind⟩

variable {e : SessionEntry}

theorem Targets.get?_apply (h : Targets t kind) (he : e.kind = kind)
    (base : ContextChanges) (x : EntryId) :
    (applyContextChange base e).get? x = if t = x then effect kind else base.get? x := by
  rcases h with rfl | ⟨replacement, curation, rfl⟩ <;>
    simp [applyContextChange, he, effect]

/-- The last change of an entry is in force after the markers, and where there is none
what was in force before them. -/
theorem get?_foldl_markers (h : List.Forall₂ (fun change e => Marks change e.kind) changes new)
    (base : ContextChanges) (t : EntryId) :
    (lastFor changes t = none → (new.foldl applyContextChange base).get? t = base.get? t) ∧
      ∀ change, lastFor changes t = some change → ∃ kind, Marks change kind ∧
        (new.foldl applyContextChange base).get? t = effect kind := by
  induction h generalizing base with
  | nil => exact ⟨fun _ => rfl, fun _ hlast => by cases hlast⟩
  | @cons change e changes new hone _ ih =>
    obtain ⟨hnone, hsome⟩ := ih (applyContextChange base e)
    have hstep := hone.targets.get?_apply rfl base t
    rw [foldl_cons, lastFor]
    cases hlast : lastFor changes t with
    | some later =>
      refine ⟨fun h => by simp at h, fun c hc => ?_⟩
      obtain rfl : later = c := by simpa using hc
      exact hsome later hlast
    | none =>
      rw [hnone hlast, hstep]
      by_cases htarget : change.targetId = t
      · simp only [htarget, if_true, none_or]
        refine ⟨fun h => absurd h (by simp), fun c hc => ?_⟩
        obtain rfl := Option.some.inj hc
        exact ⟨e.kind, hone, rfl⟩
      · simp only [htarget, if_false, none_or]
        simp

theorem prune_of_foldl {path : List SessionEntry} {base : ContextChanges} {p : PruneEntry}
    (h : (path.foldl applyContextChange base).get? t = some (.prune p)) :
    base.get? t = some (.prune p) := by
  induction path generalizing base with
  | nil => exact h
  | cons e path ih =>
    have hstep := ih h
    unfold applyContextChange at hstep
    split at hstep
    · rw [get?_set] at hstep
      split at hstep
      · cases hstep
      · exact hstep
    · rw [get?_delete] at hstep
      split at hstep
      · cases hstep
      · exact hstep
    · exact hstep

theorem sessionPath_eq_branch (h : Synced m) : m.sessionPath = m.getBranch := by
  unfold sessionPath getBranch
  cases hleaf : m.leafId with
  | none => simp [walk]
  | some id =>
    have hmem := (mem_keys_byId h).mpr (h.leaf id hleaf)
    cases hget : m.byId.get? id with
    | some e => simp only [hget]
    | none => exact absurd hmem (InsertionMap.get?_eq_none.mp hget)

theorem buildSessionProjection_eq (h : Synced m) :
    m.buildSessionProjection = projectPath m.freshContextChanges m.getBranch := by
  rw [LiveManager.buildSessionProjection, sessionPath_eq_branch h, freshContextChanges]

theorem AppendedTo.freshContextChanges (h : AppendedTo env m m' new) :
    m'.freshContextChanges = new.foldl applyContextChange m.freshContextChanges := by
  rw [LiveManager.freshContextChanges, LiveManager.freshContextChanges, resolveContextChanges,
    resolveContextChanges, h.branch, h.legacy, foldl_append]

theorem getElem?_projectEntries (changes : ContextChanges) (l : List SessionEntry) (i : Nat) :
    (projectEntries changes l)[i]? = l[i]?.map fun e =>
      { sourceEntry := e
        messages := if e.isCompaction && decide (0 < i) then []
          else projectContextEntry e (changes.get? e.id) } := by
  rw [projectEntries, getElem?_mapIdx]

/-! ## Batches -/

/-- What a batch leaves behind that does not fail. -/
structure Settled (m : LiveManager) (changes : List SessionManager.ContextChange)
    (m' : LiveManager) : Prop where
  /-- One marker for each change, in their order, at the end of the branch. -/
  markers : ∃ new, m'.getEntries = m.getEntries ++ new ∧ m'.getBranch = m.getBranch ++ new ∧
    m'.leafId = (new.getLast?.map SessionEntry.id).or m.leafId ∧
    List.Forall₂ (fun change e => Marks change e.kind) changes new
  states : ∀ t change, lastFor changes t = some change →
    m'.getPruneState t = askedState change.state
  summaries : ∀ t change s, lastFor changes t = some change → change.state = .summarized →
    change.summary = some s → s ≠ "" → m'.getPruneSummary t = some s
  /-- A restored entry of the context shows its raw messages, unless it is a compaction
  that is not the newest one, which shows nothing. -/
  restored : ∀ t change, lastFor changes t = some change → change.state = .included →
    ∀ (i : Nat) (p : ProjectedSessionEntry),
      m'.buildSessionProjection.entries[i]? = some p → p.sourceEntry.id = t →
        p.messages = if p.sourceEntry.isCompaction && decide (0 < i) then []
          else sessionEntryToContextMessages p.sourceEntry
  /-- Every other entry of the context stays where it is and shows what it showed. -/
  others : ∀ (i : Nat) (p : ProjectedSessionEntry), m.buildSessionProjection.entries[i]? = some p →
    ∃ p' : ProjectedSessionEntry, m'.buildSessionProjection.entries[i]? = some p' ∧ p'.sourceEntry = p.sourceEntry ∧
      (lastFor changes p.sourceEntry.id = none → p'.messages = p.messages)
  /-- The markers show nothing. -/
  silent : ∀ (i : Nat) (p : ProjectedSessionEntry),
    m'.buildSessionProjection.entries[i]? = some p → m.buildSessionProjection.entries.length ≤ i → p.messages = []

theorem contextChangeState_marks (h : Marks change kind) :
    contextChangeState (effect kind) = askedState change.state := by
  unfold Marks at h
  cases hstate : change.state with
  | summarized =>
    rw [hstate] at h
    obtain ⟨replacement, rfl, -⟩ := h
    rfl
  | _ =>
    rw [hstate] at h
    rw [h]
    rfl

theorem stripPrefix_append (front s : String) :
    SessionManager.stripPrefix front (front ++ s) = s := by
  unfold SessionManager.stripPrefix
  simp

theorem contextChangeSummary_marks {s : String} (h : Marks change kind)
    (hstate : change.state = .summarized) (hs : change.summary = some s) (hne : s ≠ "") :
    SessionManager.contextChangeSummary (effect kind) = some s := by
  unfold Marks at h
  rw [hstate] at h
  obtain ⟨replacement, rfl, hreplacement⟩ := h
  obtain ⟨content, rfl, htext⟩ := hreplacement s hs hne
  simp only [effect, SessionManager.contextChangeSummary, htext, stripPrefix_append]

theorem effect_included (h : Marks change kind) (hstate : change.state = .included) :
    effect kind = none := by
  unfold Marks at h
  rw [hstate] at h
  rw [h]
  rfl

theorem Marks.messages (h : Marks change e.kind) : sessionEntryToContextMessages e = [] := by
  rcases h.targets with hk | ⟨replacement, curation, hk⟩ <;>
    simp [sessionEntryToContextMessages, hk]

theorem Marks.not_compaction (h : Marks change e.kind) : e.isCompaction = false := by
  rcases h.targets with hk | ⟨replacement, curation, hk⟩ <;>
    simp [SessionEntry.isCompaction, hk]

theorem Marks.not_label (h : Marks change kind) (e : SessionEntry) (he : e.kind = kind) :
    e.isLabelOrPrune = false := not_label_of_change h.targets e he

theorem project_silent {change : Option ResolvedContextChange}
    (he : sessionEntryToContextMessages e = []) (hchange : ∀ p, change ≠ some (.prune p)) :
    projectContextEntry e change = [] := by
  cases change with
  | none => simpa [projectContextEntry] using he
  | some change =>
    cases change with
    | prune p => exact absurd rfl (hchange p)
    | edit replacement curation =>
      cases replacement <;> simp [projectContextEntry, he]

theorem settled_of_appended (h : Synced m) (ha : AppendedTo env m m' new)
    (hmarks : List.Forall₂ (fun change e => Marks change e.kind) changes new) :
    Settled m changes m' := by
  have hmark : ∀ e ∈ new, ∃ change, Marks change e.kind := by
    intro e he
    obtain ⟨i, hi, rfl⟩ := List.mem_iff_getElem.mp he
    have hlength := hmarks.length_eq
    exact ⟨_, List.forall₂_iff_get.mp hmarks |>.2 i (by omega) hi⟩
  have hforce := fun t => get?_foldl_markers hmarks m.freshContextChanges t
  have hselect : selectContextEntries m'.getBranch = selectContextEntries m.getBranch ++ new := by
    rw [ha.branch]
    apply selectContextEntries_append
    intro e he
    obtain ⟨change, hm⟩ := hmark e he
    exact hm.not_compaction
  have hentries : m'.buildSessionProjection.entries
      = projectEntries (new.foldl applyContextChange m.freshContextChanges)
          (selectContextEntries m.getBranch ++ new) := by
    rw [buildSessionProjection_eq ha.synced, projectPath, hselect, ha.freshContextChanges]
  have hbefore : m.buildSessionProjection.entries
      = projectEntries m.freshContextChanges (selectContextEntries m.getBranch) := by
    rw [buildSessionProjection_eq h, projectPath]
  refine ⟨⟨new, ha.entries, ha.branch, ha.leaf, hmarks⟩, ?_, ?_, ?_, ?_, ?_⟩
  · intro t change hlast
    obtain ⟨kind, hkind, hget⟩ := (hforce t).2 change hlast
    rw [LiveManager.getPruneState, ha.synced.getContextChanges_eq, ha.freshContextChanges,
      hget, contextChangeState_marks hkind]
  · intro t change s hlast hstate hs hne
    obtain ⟨kind, hkind, hget⟩ := (hforce t).2 change hlast
    rw [LiveManager.getPruneSummary, ha.synced.getContextChanges_eq, ha.freshContextChanges,
      hget, contextChangeSummary_marks hkind hstate hs hne]
  · intro t change hlast hstate i p hp hid
    obtain ⟨kind, hkind, hget⟩ := (hforce t).2 change hlast
    rw [hentries, getElem?_projectEntries] at hp
    obtain ⟨e, -, rfl⟩ := Option.map_eq_some_iff.mp hp
    rw [hid, hget, effect_included hkind hstate]
    rfl
  · intro i p hp
    rw [hbefore, getElem?_projectEntries] at hp
    obtain ⟨e, he, rfl⟩ := Option.map_eq_some_iff.mp hp
    have hlt : i < (selectContextEntries m.getBranch).length := (List.getElem?_eq_some_iff.mp he).1
    refine ⟨⟨e, if e.isCompaction && decide (0 < i) then []
      else projectContextEntry e
        ((new.foldl applyContextChange m.freshContextChanges).get? e.id)⟩, ?_, rfl, ?_⟩
    · rw [hentries, getElem?_projectEntries, getElem?_append_left hlt, he]
      rfl
    · intro hlast
      simp only [(hforce e.id).1 hlast]
  · intro i p hp hle
    rw [hentries, getElem?_projectEntries] at hp
    obtain ⟨e, he, rfl⟩ := Option.map_eq_some_iff.mp hp
    have hlength : (selectContextEntries m.getBranch).length ≤ i := by
      rw [hbefore, projectEntries, length_mapIdx] at hle
      exact hle
    rw [getElem?_append_right hlength] at he
    have hmem := mem_of_getElem? he
    obtain ⟨change, hm⟩ := hmark e hmem
    have hnone : ∀ p, (new.foldl applyContextChange m.freshContextChanges).get? e.id
        ≠ some (.prune p) := by
      intro p hc
      have hbase := prune_of_foldl (prune_of_foldl hc)
      simp only [get?_legacyChanges, ha.fresh e hmem] at hbase
      cases hbase
    simp only [hm.not_compaction, Bool.false_and]
    exact project_silent hm.messages hnone

/-- A batch of changes fails and leaves the manager as it was, or appends one marker for
each change, of which the last one for an entry decides, and touches nothing else. -/
theorem appendContextChanges_settled {migrate : List FileEntry → List FileEntry × Bool}
    (h : Reachable migrate m) (hfresh : env.Fresh) (hun : Unnamed env m)
    (changes : List SessionManager.ContextChange) :
    let outcome := m.perform migrate env (.appendContextChanges changes)
    (outcome.error ≠ none ∧ outcome.manager = m ∧ outcome.writes = []) ∨
      (outcome.error = none ∧ Settled m changes outcome.manager) := by
  intro outcome
  have hs := h.synced
  cases hkinds : changes.mapM (m.validateContextChange (m.getBranch.map SessionEntry.id)) with
  | error error =>
    simp [outcome, perform, hkinds]
  | ok kinds =>
    right
    have hmarks : List.Forall₂ Marks changes kinds :=
      (forall₂_of_mapM hkinds).imp fun _ _ => marks_of_validate
    have hlabel : ∀ kind ∈ kinds, ∀ e : SessionEntry, e.kind = kind → e.isLabelOrPrune = false := by
      intro kind hkind
      obtain ⟨i, hi, rfl⟩ := List.mem_iff_getElem.mp hkind
      have hlength := hmarks.length_eq
      exact (List.forall₂_iff_get.mp hmarks |>.2 i (by omega) hi).not_label
    obtain ⟨new, hnew, hmap⟩ := appendedTo_appendAll hs hfresh hun hlabel
    have houtcome : outcome = done (m.appendAll env kinds) := by
      simp [outcome, perform, hkinds]
    rw [houtcome]
    refine ⟨rfl, settled_of_appended hs hnew ?_⟩
    rw [← hmap] at hmarks
    exact List.forall₂_map_right_iff.mp hmarks

/-! ## Restored compactions -/

/-- Where entries name only entries, a new id is named by none. -/
theorem unnamed_of_known (hfresh : env.Fresh)
    (hparents : ∀ e ∈ m.getEntries, ∀ p ∈ e.parentId, p ∈ m.getEntries.map SessionEntry.id)
    (hprunes : ∀ e ∈ m.getEntries, ∀ p ∈ e.toPrune?,
      p.targetId ∈ m.getEntries.map SessionEntry.id) : Unnamed env m := by
  have hknown : ∀ keys, Covers keys m → ∀ id ∈ m.getEntries.map SessionEntry.id,
      id ≠ env.generateId keys := by
    intro keys hkeys id hid hc
    obtain ⟨e, he, rfl⟩ := List.mem_map.mp hid
    exact hfresh keys (hc ▸ hkeys e he)
  refine ⟨?_, ?_⟩
  · intro keys hkeys e he hc
    exact hknown keys hkeys _ (hparents e he _ hc) rfl
  · intro keys hkeys e he p hp
    exact hknown keys hkeys _ (hprunes e he p hp)

/-- A newest compaction that keeps an older one. -/
def twiceCompactedFile : List FileEntry :=
  [ .session ⟨3, "old", 0, none⟩, .entry (.userText (.lit "q") none "question"),
    .entry ⟨.lit "c", some (.lit "q"), 1, .compaction ⟨"first", .lit "q", 10, none, false, none⟩⟩,
    .entry ⟨.lit "d", some (.lit "c"), 2, .compaction ⟨"second", .lit "c", 20, none, false, none⟩⟩ ]

def twiceCompacted : LiveManager :=
  (construct (·, false) growingEnvironment true
    (.file "old.jsonl" (.present false twiceCompactedFile))).manager

theorem reachable_twiceCompacted : Reachable (·, false) twiceCompacted :=
  .init ⟨_, _, _, rfl, rfl⟩

theorem fresh_growingEnvironment : growingEnvironment.Fresh :=
  fun keys => SessionManager.longerId_fresh keys

theorem unnamed_twiceCompacted : Unnamed growingEnvironment twiceCompacted :=
  unnamed_of_known fresh_growingEnvironment (by decide +kernel) (by decide +kernel)

/-- The older compaction that the newest one keeps is restored, and before that hidden. -/
def restoreChanges : List SessionManager.ContextChange :=
  [⟨.lit "c", .excluded, none⟩, ⟨.lit "c", .included, none⟩]

theorem appendContextChanges_settled_sample :
    let outcome := twiceCompacted.perform (·, false) growingEnvironment
      (.appendContextChanges restoreChanges)
    (outcome.error ≠ none ∧ outcome.manager = twiceCompacted ∧ outcome.writes = []) ∨
      (outcome.error = none ∧ Settled twiceCompacted restoreChanges outcome.manager) :=
  appendContextChanges_settled reachable_twiceCompacted fresh_growingEnvironment
    unnamed_twiceCompacted restoreChanges

/-- The restored compaction has messages of its own and shows none of them. -/
theorem restored_compaction_shows_nothing :
    let outcome := twiceCompacted.perform (·, false) growingEnvironment
      (.appendContextChanges restoreChanges)
    Reachable (·, false) twiceCompacted ∧ outcome.error = none ∧
      ∃ p ∈ outcome.manager.buildSessionProjection.entries, p.sourceEntry.id = .lit "c" ∧
        p.messages = [] ∧ sessionEntryToContextMessages p.sourceEntry ≠ [] :=
  ⟨reachable_twiceCompacted, by decide +kernel, by decide +kernel⟩

end ReflectivePi.Curation
