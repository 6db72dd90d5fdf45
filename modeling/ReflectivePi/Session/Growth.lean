import ReflectivePi.Session.Synced

/-!
# Session — Growth

Appends and moves of the leaf only ever grow the tree of entries, and add
no legacy marker. So what a branch shows is settled by the branch: nothing
appended elsewhere changes it, and the last edit or cancel of a target on
the branch has the word over every legacy marker.
-/

namespace ReflectivePi.Session

open List Option InsertionMap ParentWalk

/-- Entries with distinct ids, no cycle, and parents that exist. -/
abbrev SessionTree (l : List SessionEntry) : Prop :=
  Tree SessionEntry.id SessionEntry.parentId l

/-- `l` with entries appended, none of them a legacy marker. -/
abbrev GrownFrom (l l' : List SessionEntry) : Prop :=
  Grown SessionEntry.id SessionEntry.parentId (fun e => e.toPrune? = none) l l'

/-- Generated ids are new: `generateId` tries until one is. -/
def Environment.Fresh (env : Environment) : Prop :=
  ∀ keys, env.generateId keys ∉ keys

namespace LiveManager

/-- Everything but the ways to another session. -/
def Operation.grows : Operation → Bool
  | .createBranchedSession _ | .newSession _ | .setSessionFile _ _ => false
  | _ => true

/-! ## One operation -/

variable {m m' : LiveManager} {env : Environment}
  {migrate : List FileEntry → List FileEntry × Bool}

theorem mem_keys_byId (h : Synced m) {id : EntryId} :
    id ∈ m.byId.keys ↔ id ∈ m.getEntries.map SessionEntry.id := by
  rw [← not_iff_not, ← get?_eq_none, h.byId, lookup_eq_none]

theorem getEntries_appendEntry (m : LiveManager) (e : SessionEntry) :
    (m.appendEntry e).1.getEntries = m.getEntries ++ [e] := by
  refine getEntries_append ?_
  rw [appendEntry, persistEntry_eq]

section

variable (h : Synced m) (hfresh : env.Fresh)

include h hfresh

theorem grown_newEntry {kind : EntryKind}
    (hkind : (m.newEntry env kind).toPrune? = none) :
    GrownFrom m.getEntries (m.append env kind).1.getEntries := by
  rw [append, getEntries_appendEntry]
  refine .append .refl hkind ?_ h.leaf
  rw [← mem_keys_byId h]
  exact hfresh _

theorem grown_append {kind : EntryKind}
    (hkind : (m.newEntry env kind).isLabelOrPrune = false) :
    GrownFrom m.getEntries (m.append env kind).1.getEntries :=
  grown_newEntry h hfresh (toPrune?_of_not hkind)

theorem grown_appendAll
    {kinds : List EntryKind} (hkinds : ∀ kind ∈ kinds,
      ∀ e : SessionEntry, e.kind = kind → e.isLabelOrPrune = false) :
    GrownFrom m.getEntries (m.appendAll env kinds).1.getEntries := by
  induction kinds generalizing m with
  | nil => exact .refl
  | cons kind kinds ih =>
    have hkind := hkinds kind (by simp) (m.newEntry env kind) rfl
    refine (grown_append h hfresh hkind).trans ?_
    exact ih (synced_appendEntry h hkind) fun k hk => hkinds k (by simp [hk])

/-- **An append or a move grows the tree.** -/
theorem grown_perform {op : Operation} (hop : op.grows = true) :
    GrownFrom m.getEntries (m.perform migrate env op).manager.getEntries := by
  cases op with
  | read =>
    have hread : m.getContextChanges.2.getEntries = m.getEntries := by
      unfold getContextChanges
      simp only
      split
      · rfl
      · split <;> rfl
    show GrownFrom m.getEntries m.getContextChanges.2.getEntries
    rw [hread]
    exact .refl
  | append kind plain =>
    refine grown_append h hfresh ?_
    cases kind <;> first | rfl | cases plain
  | appendCompaction summary first tokens details fromHook =>
    exact grown_append h hfresh rfl
  | appendLabelChange targetId label =>
    unfold perform
    simp only
    split
    · exact .refl
    · have hlabel : GrownFrom m.getEntries (m.append env (.label targetId label)).1.getEntries :=
        grown_newEntry h hfresh rfl
      exact hlabel
  | appendContextChanges changes =>
    unfold perform
    simp only
    split
    · exact .refl
    · rename_i kinds hkinds
      refine grown_appendAll h hfresh fun kind hk e he => ?_
      obtain ⟨change, -, hkind⟩ := change_of_mapM hkinds kind hk
      exact not_label_of_change hkind e he
  | branch id =>
    unfold perform
    simp only
    split <;> exact .refl
  | resetLeaf => exact .refl
  | branchWithSummary id summary =>
    unfold perform
    cases id with
    | none =>
      have hmoved : Synced { m with leafId := none } := synced_branchTo h (by simp)
      exact grown_append hmoved hfresh rfl
    | some id =>
      simp only
      split
      · exact .refl
      · rename_i hhas
        have hmoved : Synced { m with leafId := some id } := by
          refine synced_branchTo h fun x hx => ?_
          rw [mem_some_iff] at hx
          rw [← hx]
          exact has_byId h (by simpa using hhas)
        exact grown_append hmoved hfresh rfl
  | createBranchedSession leafId => cases hop
  | newSession options => cases hop
  | setSessionFile path file => cases hop
  | _ =>
    unfold perform
    simp only
    split
    · exact .refl
    · exact grown_append h hfresh rfl

end

/-- Appends and moves, each with new ids. -/
abbrev Growing (migrate : List FileEntry → List FileEntry × Bool)
    (m : LiveManager) : LiveManager → Prop :=
  Run (fun m₀ => m₀ = m) (fun m₀ (label : Environment × Operation) =>
      some (m₀.perform migrate label.1 label.2).manager)
    (fun _ label => label.1.Fresh ∧ label.2.grows = true)

theorem Growing.spec (h : Growing migrate m m') (hm : Synced m) :
    Synced m' ∧ GrownFrom m.getEntries m'.getEntries := by
  refine Run.invariant (p := fun m' =>
    Synced m' ∧ GrownFrom m.getEntries m'.getEntries) ?_ ?_ h
  · rintro _ rfl
    exact ⟨hm, .refl⟩
  · rintro m₀ label _ ⟨hs, hg⟩ ⟨hfresh, hop⟩ hstep
    cases hstep
    exact ⟨synced_perform hs label.2, hg.trans (grown_perform hs hfresh hop)⟩

end LiveManager

variable {l : List SessionEntry} {changes : ContextChanges} {e : SessionEntry} {t : EntryId}

theorem buildSessionPath_ofLeaf {leaf : Option EntryId}
    (h : ∀ id ∈ leaf, id ∈ l.map SessionEntry.id) :
    buildSessionPath l (.ofLeaf leaf) = branchPath l leaf := by
  cases leaf with
  | none => rfl
  | some id =>
    simp only [LeafArg.ofLeaf, buildSessionPath]
    cases hlk : lookup SessionEntry.id l id with
    | none => exact absurd (h id rfl) (lookup_eq_none.mp hlk)
    | some e => rfl

theorem legacyBaseline_grown {l' : List SessionEntry} (h : GrownFrom l l') :
    legacyBaseline l' = legacyBaseline l := by
  refine h.foldl_eq (fun changes e he => ?_) _
  simp only [he]

/-- **A leaf there was before sees what it saw.** -/
theorem buildSessionProjection_grown {l' : List SessionEntry}
    (h : GrownFrom l l') (hl : SessionTree l) {leaf : Option EntryId}
    (hleaf : ∀ id ∈ leaf, id ∈ l.map SessionEntry.id) :
    buildSessionProjection l' (.ofLeaf leaf) none
      = buildSessionProjection l (.ofLeaf leaf) none := by
  have hpath : buildSessionPath l' (.ofLeaf leaf) = buildSessionPath l (.ofLeaf leaf) := by
    rw [buildSessionPath_ofLeaf hleaf,
      buildSessionPath_ofLeaf fun id hid => h.mem_keys (hleaf id hid)]
    exact h.ancestry_eq hl hleaf
  simp only [buildSessionProjection, hpath, resolveContextChanges, legacyBaseline_grown h]

/-! ## The last word on the branch -/

/-- What an edit or a cancel says its target contributes. -/
def SessionEntry.prescribes (e target : SessionEntry) : List AgentMessage :=
  match e.kind with
  | .contextEdit _ none _ => []
  | .contextEdit _ (some replacement) curation =>
    (sessionEntryToContextMessages target).map (replaceMessageContent target replacement curation)
  | _ => sessionEntryToContextMessages target

theorem get?_applyContextChange_of_ne (h : e.changeTarget? ≠ some t) :
    (applyContextChange changes e).get? t = changes.get? t := by
  unfold SessionEntry.changeTarget? at h
  unfold applyContextChange
  cases hk : e.kind with
  | contextEdit targetId replacement curation =>
    rw [hk] at h
    simp only [get?_set]
    exact if_neg fun hc => h (by rw [hc])
  | contextEditCancel targetId =>
    rw [hk] at h
    simp only [get?_delete]
    exact if_neg fun hc => h (by rw [hc])
  | _ => rfl

theorem get?_foldl_of_ne {path : List SessionEntry} (h : ∀ x ∈ path, x.changeTarget? ≠ some t) :
    (path.foldl applyContextChange changes).get? t = changes.get? t := by
  induction path generalizing changes with
  | nil => rfl
  | cons x rest ih =>
    rw [foldl_cons, ih fun y hy => h y (mem_cons_of_mem _ hy)]
    exact get?_applyContextChange_of_ne (h x (by simp))

theorem projectContextEntry_applied {target : SessionEntry} (h : e.changeTarget? = some target.id) :
    projectContextEntry target
      ((applyContextChange changes e).get? target.id) = e.prescribes target := by
  unfold SessionEntry.changeTarget? at h
  unfold applyContextChange SessionEntry.prescribes
  cases hk : e.kind with
  | contextEdit targetId replacement curation =>
    rw [hk] at h
    cases h
    simp only [get?_set, if_true]
    cases replacement <;> rfl
  | contextEditCancel targetId =>
    rw [hk] at h
    cases h
    simp only [get?_delete, if_true]
    rfl
  | _ =>
    rw [hk] at h
    cases h

/-- **The last edit or cancel on the path prescribes its target**, over any
baseline; an older compaction entry contributes nothing. -/
theorem messages_of_last_change {path pre post : List SessionEntry} {baseline : ContextChanges}
    (hpath : path = pre ++ e :: post) (he : e.changeTarget? = some t)
    (hpost : ∀ x ∈ post, x.changeTarget? ≠ some t) {i : Nat} {p : ProjectedSessionEntry}
    (hp : (projectPath (path.foldl applyContextChange baseline) path).entries[i]?
      = some p) (ht : p.sourceEntry.id = t) :
    p.messages = if p.sourceEntry.isCompaction && decide (0 < i) then []
      else e.prescribes p.sourceEntry := by
  simp only [projectPath, projectEntries, getElem?_mapIdx, map_eq_some_iff] at hp
  obtain ⟨target, -, rfl⟩ := hp
  simp only at ht ⊢
  subst ht
  split
  · rfl
  · rw [hpath, foldl_append, foldl_cons, get?_foldl_of_ne hpost, projectContextEntry_applied he]

namespace LiveManager

variable {m m' : LiveManager}
  {migrate : List FileEntry → List FileEntry × Bool}

/-- The projection at a leaf, as the manager moved there gives it and as
the entries alone do. -/
def projectionsAt (m : LiveManager) (leaf : Option EntryId) :
    SessionProjection × SessionProjection :=
  ({ m with leafId := leaf }.buildSessionProjection,
    Session.buildSessionProjection m.getEntries (.ofLeaf leaf) none)

/-- On every path of `projection` the last edit or cancel of a target
prescribes what the target contributes, unless the target is a compaction
behind a newer one. -/
def LastChangePrescribes (path : List SessionEntry)
    (projection : SessionProjection) : Prop :=
  ∀ pre e post t, path = pre ++ e :: post → e.changeTarget? = some t →
    (∀ x ∈ post, x.changeTarget? ≠ some t) →
    ∀ (i : Nat) p, projection.entries[i]? = some p → p.sourceEntry.id = t →
      p.messages = if p.sourceEntry.isCompaction && decide (0 < i) then []
        else e.prescribes p.sourceEntry

/-- What a run of appends and moves from `m` to `m'` does to the leaves
there were, and what it gives at the leaves there are. -/
structure BranchLocal (m m' : LiveManager) : Prop where
  others : ∀ leaf : Option EntryId, (∀ id ∈ leaf, id ∈ m.getEntries.map SessionEntry.id) →
    m'.projectionsAt leaf = m.projectionsAt leaf
  prescribed : ∀ leaf : Option EntryId, (∀ id ∈ leaf, id ∈ m'.getEntries.map SessionEntry.id) →
    LastChangePrescribes (branchPath m'.getEntries leaf) (m'.projectionsAt leaf).1 ∧
      LastChangePrescribes (branchPath m'.getEntries leaf) (m'.projectionsAt leaf).2

theorem projectionsAt_eq (h : Synced m) {leaf : Option EntryId}
    (hleaf : ∀ id ∈ leaf, id ∈ m.getEntries.map SessionEntry.id) :
    m.projectionsAt leaf = (Session.buildSessionProjection m.getEntries (.ofLeaf leaf) none,
          Session.buildSessionProjection m.getEntries (.ofLeaf leaf) none) := by
  have hmoved := synced_branchTo h hleaf
  rw [projectionsAt, buildSessionProjection, hmoved.sessionPath_eq,
    projectPath_congr (hmoved.readAlike _)]
  rfl

/-- **Curation is branch-local**: a run of appends and moves leaves what
every leaf before it shows, and at every leaf after it the last edit or
cancel on the path prescribes, whatever the legacy markers. -/
theorem curation_branch_local (hm : Reachable migrate m)
    (htree : SessionTree m.getEntries) (hrun : Growing migrate m m') : BranchLocal m m' := by
  obtain ⟨hs', hgrown⟩ := hrun.spec hm.synced
  refine ⟨?_, ?_⟩
  · intro leaf hleaf
    rw [projectionsAt_eq hs' fun id hid => hgrown.mem_keys (hleaf id hid),
      projectionsAt_eq hm.synced hleaf, buildSessionProjection_grown hgrown htree hleaf]
  · intro leaf hleaf
    have hlast : LastChangePrescribes (branchPath m'.getEntries leaf)
        (Session.buildSessionProjection m'.getEntries (.ofLeaf leaf) none) := by
      intro pre e post t hpath he hpost i p hp ht
      rw [Session.buildSessionProjection, buildSessionPath_ofLeaf hleaf] at hp
      exact messages_of_last_change hpath he hpost hp ht
    rw [projectionsAt_eq hs' hleaf]
    exact ⟨hlast, hlast⟩

/-! ## An edited compaction -/

theorem growing_foldl {env : Environment} (hfresh : env.Fresh)
    {ops : List Operation} (hops : ∀ op ∈ ops, op.grows = true) (h : Growing migrate m m') :
    Growing migrate m
      (ops.foldl (fun m op => (m.perform migrate env op).manager) m') := by
  induction ops generalizing m' with
  | nil => exact h
  | cons op ops ih =>
    have hok : ∀ o ∈ ops, o.grows = true := fun o ho => hops o (by simp [ho])
    exact ih hok (@Run.step _ _ _ _ _ _ _ (env, op) h
      ⟨hfresh, hops op (by simp)⟩ rfl)

/-- Ids that grow. -/
def growingEnvironment : Environment where
  generateId := SessionManager.longerId
  clock count := count
  createSessionId := "session"
  newSessionFile _ id := id ++ ".jsonl"

/-- A block hidden by a legacy marker, under a compaction that kept it. -/
def compactedFile : List FileEntry :=
  [ .session ⟨3, "old", 0, none⟩, .entry (.userText (.lit "q") none "question"),
    .entry ⟨.lit "hide", some (.lit "q"), 2, .prune (.lit "q") .excluded none⟩,
    .entry ⟨.lit "c", some (.lit "hide"), 3,
      .compaction ⟨"summary", .lit "q", 10, none, false, none⟩⟩ ]

def compactedManager : LiveManager :=
  (construct (·, false) growingEnvironment true
    (.file "old.jsonl" (.present false compactedFile))).manager

/-- The block is restored and the compaction edited; then the session is
compacted again from the same block on. -/
def curatedManager : LiveManager :=
  [ .appendContextEditCancel (.lit "q"),
    .appendContextEdit (.lit "c") (some (.text "shorter")) none,
    .appendCompaction "second" (some (.lit "q")) 20 none false ].foldl
      (fun m op => (m.perform (·, false) growingEnvironment op).manager)
      compactedManager

theorem curation_branch_local_sample : BranchLocal compactedManager curatedManager := by
  have hm : Reachable (·, false) compactedManager :=
    .init ⟨_, _, _, rfl, rfl⟩
  have htree : SessionTree compactedManager.getEntries := by
    have hordered : ordered SessionEntry.id SessionEntry.parentId []
        compactedManager.getEntries = true := by decide
    obtain ⟨hnodup, hacyclic, hparents⟩ := ordered_nil hordered
    exact ⟨hnodup, hacyclic, hparents⟩
  exact curation_branch_local hm htree
    (growing_foldl (fun keys => SessionManager.longerId_fresh keys) (by decide) (.init rfl))

/-- The edit of the older compaction, which is kept, prescribes a message
that it does not contribute. -/
theorem kept_compaction_contributes_nothing :
    ∃ pre e post, curatedManager.getBranch = pre ++ e :: post ∧ e.changeTarget? = some (.lit "c") ∧
      (∀ x ∈ post, x.changeTarget? ≠ some (.lit "c")) ∧
      ∃ p ∈ curatedManager.buildSessionProjection.entries, p.sourceEntry.id = .lit "c" ∧
          p.messages ≠ e.prescribes p.sourceEntry :=
  ⟨curatedManager.getBranch.take 4, (curatedManager.getBranch.drop 4).head (by decide +kernel),
    curatedManager.getBranch.drop 5, by decide +kernel, by decide +kernel,
    by decide +kernel, by decide +kernel⟩

end LiveManager

end ReflectivePi.Session
