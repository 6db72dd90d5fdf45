import ReflectivePi.Compaction.Prepare
import ReflectivePi.Session.Growth

/-!
# Compaction — Trusted

When the estimate of a projected context trusts the usage of a message: what the
projection shows up to that message is what the branch showed when it ended there, in
the file as it was then. The three orders that the check compares are one order each
for a message, an entry of the branch and an entry of the file.
-/

namespace ReflectivePi.Compaction

open List InsertionMap Session ParentWalk

/-- A session file in append order: every id is new and every parent is an earlier entry. -/
def AppendOrdered (entries : List SessionEntry) : Prop :=
  ordered SessionEntry.id SessionEntry.parentId [] entries = true

variable {entries before after path pre post : List SessionEntry} {u : SessionEntry}
  {leaf : Option EntryId} {t : EntryId}

theorem AppendOrdered.tree (h : AppendOrdered entries) :
    Tree SessionEntry.id SessionEntry.parentId entries := by
  obtain ⟨hnodup, hacyclic, hparents⟩ := ordered_nil h
  exact ⟨hnodup, hacyclic, hparents⟩

theorem ordered_split {seen : List EntryId}
    (h : ordered SessionEntry.id SessionEntry.parentId seen (before ++ after) = true) :
    ordered SessionEntry.id SessionEntry.parentId seen before = true ∧
      ordered SessionEntry.id SessionEntry.parentId (seen ++ before.map SessionEntry.id)
        after = true := by
  induction before generalizing seen with
  | nil => simpa [ordered] using h
  | cons e before ih =>
    simp only [cons_append, ordered, Bool.and_eq_true] at h ⊢
    obtain ⟨hbefore, hafter⟩ := ih h.2
    refine ⟨⟨h.1, hbefore⟩, ?_⟩
    rw [map_cons, append_cons]
    exact hafter

theorem grown_of_ordered
    (h : ordered SessionEntry.id SessionEntry.parentId (before.map SessionEntry.id) after = true) :
    Grown SessionEntry.id SessionEntry.parentId (fun _ => True) before (before ++ after) := by
  induction after generalizing before with
  | nil => simpa using Grown.refl
  | cons e after ih =>
    simp only [ordered, Bool.and_eq_true, decide_eq_true_eq] at h
    obtain ⟨⟨hnew, hparent⟩, hrest⟩ := h
    have hone : Grown SessionEntry.id SessionEntry.parentId (fun _ => True) before
        (before ++ [e]) := by
      refine .append .refl trivial hnew ?_
      intro k hk
      rw [Option.mem_def.mp hk] at hparent
      simpa using hparent
    have hmore : Grown SessionEntry.id SessionEntry.parentId (fun _ => True)
        (before ++ [e]) ((before ++ [e]) ++ after) := ih (by simpa using hrest)
    rw [append_assoc, singleton_append] at hmore
    exact hone.trans hmore

theorem branchPath_prefix (h : AppendOrdered (before ++ u :: after)) :
    branchPath (before ++ [u]) (some u.id) = branchPath (before ++ u :: after) (some u.id) := by
  have hsplit : before ++ u :: after = (before ++ [u]) ++ after := by simp
  rw [AppendOrdered, hsplit] at h
  obtain ⟨hold, hnew⟩ := ordered_split h
  have hgrown := grown_of_ordered (nil_append _ ▸ hnew)
  have htree : Tree SessionEntry.id SessionEntry.parentId (before ++ [u]) := AppendOrdered.tree hold
  rw [hsplit, branchPath, branchPath]
  refine (hgrown.ancestry_eq htree ?_).symm
  simp

theorem branchPath_split (h : AppendOrdered entries)
    (hbranch : branchPath entries leaf = pre ++ u :: post) :
    branchPath entries (some u.id) = pre ++ [u] := by
  have htree := h.tree
  have hlength := walkUp_length_le htree.acyclic (entries.length + 1) leaf
  have hwalk := Walk.of_walkUp (Nat.lt_succ_of_le hlength)
  have hreverse : walkUp SessionEntry.parentId (lookup SessionEntry.id entries)
      (entries.length + 1) leaf = post.reverse ++ u :: pre.reverse := by
    have := congrArg List.reverse hbranch
    simpa [branchPath, ancestry] using this
  rw [hreverse] at hwalk
  have hsuffix := hwalk.suffix
  have hle : (u :: pre.reverse).length ≤ entries.length := by
    rw [hreverse, length_append] at hlength
    omega
  rw [branchPath, ancestry, hsuffix.walkUp_eq (Nat.lt_succ_of_le hle)]
  simp

/-- An edit or a cancel on the path decides whatever the legacy markers say. -/
theorem get?_foldl_of_targeted {base base' : ContextChanges}
    (h : ∃ e ∈ path, e.changeTarget? = some t) :
    (path.foldl applyContextChange base).get? t = (path.foldl applyContextChange base').get? t := by
  induction path using List.reverseRecOn with
  | nil => simp at h
  | append_singleton path e ih =>
    rw [foldl_append, foldl_append]
    by_cases htarget : e.changeTarget? = some t
    · unfold SessionEntry.changeTarget? at htarget
      unfold applyContextChange
      cases hk : e.kind <;> simp_all
    · simp only [foldl_cons, foldl_nil, get?_applyContextChange_of_ne htarget]
      obtain ⟨x, hx, hxt⟩ := h
      rcases List.mem_append.mp hx with hx | hx
      · exact ih ⟨x, hx, hxt⟩
      · rw [List.mem_singleton.mp hx] at hxt
        exact absurd hxt htarget

theorem get?_legacyBaseline_append (h : ∀ e ∈ after, ∀ p ∈ e.toPrune?, p.targetId ≠ t) :
    (legacyBaseline (before ++ after)).get? t = (legacyBaseline before).get? t := by
  unfold legacyBaseline
  rw [foldl_append]
  generalize before.foldl _ InsertionMap.empty = base
  induction after generalizing base with
  | nil => rfl
  | cons e after ih =>
    rw [foldl_cons, ih (fun x hx => h x (mem_cons_of_mem e hx))]
    cases hp : e.toPrune? with
    | none => rfl
    | some p =>
      have hne := h e mem_cons_self p hp
      simp only
      split
      · rw [get?_delete, if_neg hne]
      · rw [get?_set, if_neg hne]

/-! ## The check -/

/-- Where the last marker of each target stands in the file. -/
def latestLegacyChanges (entries : List SessionEntry) : InsertionMap EntryId Nat :=
  entries.zipIdx.foldl (fun latest e =>
    match e.1.kind with
    | .prune targetId _ _ => latest.set targetId e.2
    | _ => latest) InsertionMap.empty

/-- The usage stands after the last edit or compaction of the branch. -/
def standsAfterEdits (branch : List SessionEntry) (usageId : EntryId) : Bool :=
  match branch.findIdx? (fun e => e.id = usageId),
    (branch.reverse.findIdx? isUsageInvalidating).map (fun i => branch.length - 1 - i) with
  | some u, some i => decide (i < u)
  | some _, none => true
  | none, _ => false

def laterLegacyChange (projection : SessionProjection) (branch entries : List SessionEntry)
    (usageId : EntryId) : Bool :=
  match entries.findIdx? (fun e => e.id = usageId) with
  | none => false
  | some u => (latestLegacyChanges entries).entries.any fun p =>
    decide (u < p.2) && decide (p.1 ∈ projection.entries.map (fun e => e.sourceEntry.id))
      && !decide (p.1 ∈ branch.filterMap SessionEntry.changeTarget?)

theorem usageStillValid_eq (projection : SessionProjection)
    (branch entries : List SessionEntry) (usageId : EntryId) :
    usageStillValid projection branch entries usageId = (standsAfterEdits branch usageId
          && (entries.findIdx? (fun e => e.id = usageId)).isSome
          && !laterLegacyChange projection branch entries usageId) := rfl

theorem split_of_findIdx? {l : List SessionEntry} {id : EntryId} {n : Nat}
    (h : l.findIdx? (fun e => e.id = id) = some n) :
    ∃ e, e.id = id ∧ l = l.take n ++ e :: l.drop (n + 1) ∧ n < l.length := by
  obtain ⟨hlt, hid, -⟩ := List.findIdx?_eq_some_iff_getElem.mp h
  refine ⟨l[n], by simpa using hid, ?_, hlt⟩
  simp

variable {usageId : EntryId} {e : SessionEntry} {i : Nat}

theorem valid_of_standsAfterEdits {branch : List SessionEntry}
    (h : standsAfterEdits branch usageId = true) :
    ∃ pre u post, branch = pre ++ u :: post ∧ u.id = usageId ∧
      ∀ e ∈ u :: post, isUsageInvalidating e = false := by
  unfold standsAfterEdits at h
  cases hu : branch.findIdx? (fun e => e.id = usageId) with
  | none => simp [hu] at h
  | some n =>
    obtain ⟨u, hid, hsplit, hlt⟩ := split_of_findIdx? hu
    refine ⟨branch.take n, u, branch.drop (n + 1), hsplit, hid, ?_⟩
    have hdrop : u :: branch.drop (n + 1) = branch.drop n := by
      have := congrArg (List.drop n) hsplit
      rw [drop_left' (by simp; omega)] at this
      exact this.symm
    rw [hdrop]
    intro e he
    obtain ⟨m, hm, rfl⟩ := List.mem_iff_getElem.mp he
    rw [length_drop] at hm
    cases hlast : branch.reverse.findIdx? isUsageInvalidating with
    | none =>
      rw [findIdx?_eq_none_iff] at hlast
      exact hlast _ (by simp)
    | some i =>
      rw [hu, hlast] at h
      simp only [Option.map_some, decide_eq_true_eq] at h
      obtain ⟨hi, -, hbefore⟩ := List.findIdx?_eq_some_iff_getElem.mp hlast
      have hthere := hbefore (branch.length - 1 - (n + m)) (by omega)
      rw [getElem_reverse] at hthere
      have hindex : branch.length - 1 - (branch.length - 1 - (n + m)) = n + m := by omega
      simp only [hindex] at hthere
      simpa using hthere

theorem get?_latestLegacyChanges_concat (l : List SessionEntry) (x : SessionEntry)
    (t : EntryId) : (latestLegacyChanges (l ++ [x])).get? t
      = if x.toPrune?.map PruneEntry.targetId = some t then some l.length
        else (latestLegacyChanges l).get? t := by
  rw [latestLegacyChanges, zipIdx_append, foldl_append]
  simp only [zipIdx_cons, zipIdx_nil, foldl_cons, foldl_nil]
  rw [← latestLegacyChanges]
  unfold SessionEntry.toPrune?
  cases x.kind <;> simp

theorem latest_of_marker {p : PruneEntry} (he : e ∈ after)
    (hp : e.toPrune? = some p) (before : List SessionEntry) : ∃ n, (latestLegacyChanges (before ++ after)).get? p.targetId
      = some n ∧ before.length ≤ n := by
  induction after using List.reverseRecOn with
  | nil => simp at he
  | append_singleton after x ih =>
    rw [← append_assoc, get?_latestLegacyChanges_concat]
    split
    · exact ⟨_, rfl, by simp⟩
    · rename_i hother
      rcases List.mem_append.mp he with he | he
      · exact ih he
      · rw [← List.mem_singleton.mp he, hp] at hother
        exact absurd rfl hother

/-- Without a later change every entry of the context is edited on the branch or has no
marker behind the usage. -/
theorem settled_of_laterLegacyChange {projection : SessionProjection}
    {branch : List SessionEntry} (hnodup : (entries.map SessionEntry.id).Nodup)
    (hentries : entries = before ++ u :: after)
    (h : laterLegacyChange projection branch entries u.id = false)
    (ht : t ∈ projection.entries.map (fun e => e.sourceEntry.id)) :
    (∃ e ∈ branch, e.changeTarget? = some t) ∨ ∀ e ∈ after, ∀ p ∈ e.toPrune?, p.targetId ≠ t := by
  by_cases hedited : t ∈ branch.filterMap SessionEntry.changeTarget?
  · exact .inl (List.mem_filterMap.mp hedited)
  · right
    rintro e he p hp rfl
    have hsplit : entries = (before ++ [u]) ++ after := by simp [hentries]
    obtain ⟨n, hget, hle⟩ := latest_of_marker he hp (before ++ [u])
    rw [← hsplit] at hget
    have hindex : entries.findIdx? (fun e => e.id = u.id) = some before.length := by
      rw [hentries]
      exact findIdx?_of_nodup (hentries ▸ hnodup)
    simp only [laterLegacyChange, hindex, any_eq_false] at h
    have hnone := h _ (InsertionMap.mem_entries_iff.mpr hget)
    rw [length_append, length_singleton] at hle
    simp only [ht, hedited, decide_true, decide_false, Bool.not_false, Bool.and_true,
      decide_eq_true_eq] at hnone
    omega

/-! ## The messages up to the usage -/

theorem not_edit_of_valid (h : isUsageInvalidating e = false) :
    e.isCompaction = false ∧ e.changeTarget? = none := by
  unfold isUsageInvalidating at h
  unfold SessionEntry.isCompaction SessionEntry.changeTarget?
  cases hk : e.kind <;> simp_all

theorem project_length_le (h : e.isCompaction = false)
    (change : Option ResolvedContextChange) : (projectContextEntry e change).length ≤ 1 := by
  have hraw := contextMessages_length_le h
  unfold projectContextEntry
  split
  · exact hraw
  · split
    · exact hraw
    · simp
    · split
      · simp
      · split
        · simp
        · split
          · rename_i hk
            simp [SessionEntry.isCompaction, hk] at h
          · simp
  · simp
  · simpa using hraw

theorem split_of_entryOfMessageIndex {l : List ProjectedSessionEntry} {index : Nat}
    {id : EntryId} (h : entryOfMessageIndex l index = some id) :
    ∃ front p back, l = front ++ p :: back ∧ p.sourceEntry.id = id ∧
      (front.flatMap ProjectedSessionEntry.messages).length ≤ index ∧
      index < (front.flatMap ProjectedSessionEntry.messages).length + p.messages.length := by
  induction l generalizing index with
  | nil => cases h
  | cons p l ih =>
    rw [entryOfMessageIndex] at h
    split at h
    · rename_i hlt
      exact ⟨[], p, l, rfl, Option.some.inj h, by simp, by simpa using hlt⟩
    · rename_i hle
      obtain ⟨front, q, back, rfl, hid, hlow, hhigh⟩ := ih h
      refine ⟨p :: front, q, back, rfl, hid, ?_, ?_⟩
      · rw [flatMap_cons, length_append]
        omega
      · rw [flatMap_cons, length_append]
        omega

theorem projectEntries_congr_on {changes changes' : ContextChanges} {l : List SessionEntry}
    (h : ∀ x ∈ l, changes.get? x.id = changes'.get? x.id) :
    projectEntries changes l = projectEntries changes' l := by
  apply ext_getElem?
  intro i
  rw [projectEntries, projectEntries, getElem?_mapIdx, getElem?_mapIdx]
  cases hx : l[i]? with
  | none => rfl
  | some x => simp only [Option.map_some, h x (mem_of_getElem? hx)]

theorem split_unique {l front back front' back' : List ProjectedSessionEntry}
    {p p' : ProjectedSessionEntry} (hnodup : (l.map fun e => e.sourceEntry.id).Nodup)
    (h : l = front ++ p :: back) (h' : l = front' ++ p' :: back')
    (hid : p.sourceEntry.id = p'.sourceEntry.id) : front = front' ∧ p = p' := by
  have hat : (l.map fun e => e.sourceEntry.id)[front.length]? = some p.sourceEntry.id := by
    simp [h]
  have hat' : (l.map fun e => e.sourceEntry.id)[front'.length]? = some p.sourceEntry.id := by
    simp [h', hid]
  have hlength : front.length = front'.length := by
    obtain ⟨hlt, heq⟩ := List.getElem?_eq_some_iff.mp hat
    obtain ⟨hlt', heq'⟩ := List.getElem?_eq_some_iff.mp hat'
    exact (hnodup.getElem_inj_iff).mp (heq.trans heq'.symm)
  obtain ⟨hfront, hrest⟩ := append_inj (h.symm.trans h') hlength
  exact ⟨hfront, (List.cons.inj hrest).1⟩

/-- What the changes in force say about the entries that are shown up to the usage is
what they said when the branch ended there. -/
theorem get?_changes_eq (hpost : ∀ e ∈ post, e.changeTarget? = none)
    (h : (∃ e ∈ path ++ post, e.changeTarget? = some t) ∨
      ∀ e ∈ after, ∀ p ∈ e.toPrune?, p.targetId ≠ t) :
    ((path ++ post).foldl applyContextChange (legacyBaseline (before ++ after))).get? t
      = (path.foldl applyContextChange (legacyBaseline before)).get? t := by
  have hquiet : ∀ x ∈ post, x.changeTarget? ≠ some t := fun x hx => by simp [hpost x hx]
  rw [foldl_append, get?_foldl_of_ne hquiet]
  by_cases htarget : ∃ e ∈ path, e.changeTarget? = some t
  · exact get?_foldl_of_targeted htarget
  · have hnone : ∀ e ∈ path, e.changeTarget? ≠ some t :=
      fun e he hc => htarget ⟨e, he, hc⟩
    rw [get?_foldl_of_ne hnone, get?_foldl_of_ne hnone]
    rcases h with ⟨e, he, het⟩ | h
    · rcases List.mem_append.mp he with he | he
      · exact absurd het (hnone e he)
      · rw [hpost e he] at het
        cases het
    · exact get?_legacyBaseline_append h

theorem sourceIds_projectEntries (changes : ContextChanges) (l : List SessionEntry) :
    (projectEntries changes l).map (fun e => e.sourceEntry.id) = l.map SessionEntry.id := by
  have hcomp : (fun e : ProjectedSessionEntry => e.sourceEntry.id)
      = SessionEntry.id ∘ ProjectedSessionEntry.sourceEntry := rfl
  rw [hcomp, ← map_map, sourceEntry_projectEntries]

/-- The messages of a projection up to one that the entry `u` owns are those of the
entries up to `u`. -/
theorem take_projectPath {changes : ContextChanges}
    (hnodup : ((pre ++ u :: post).map SessionEntry.id).Nodup)
    (hquiet : ∀ e ∈ u :: post, isUsageInvalidating e = false)
    (howner : entryOfMessageIndex (projectPath changes (pre ++ u :: post)).entries i = some u.id) :
    (projectPath changes (pre ++ u :: post)).messages.take (i + 1)
      = (projectEntries changes (selectContextEntries (pre ++ [u]))).flatMap
          ProjectedSessionEntry.messages := by
  have hu := not_edit_of_valid (hquiet u mem_cons_self)
  have hselect : selectContextEntries (pre ++ u :: post)
      = selectContextEntries pre ++ ([u] ++ post) :=
    selectContextEntries_append fun e he => (not_edit_of_valid (hquiet e he)).1
  -- the entries before `u`, its own, and those behind it
  obtain ⟨shown, rest, hentries, hcut, hsource, hone⟩ : ∃ shown rest,
      (projectPath changes (pre ++ u :: post)).entries
        = projectEntries changes (selectContextEntries pre) ++ shown :: rest ∧
      projectEntries changes (selectContextEntries (pre ++ [u]))
        = projectEntries changes (selectContextEntries pre) ++ [shown] ∧
      shown.sourceEntry = u ∧ shown.messages.length ≤ 1 := by
    simp only [projectPath]
    rw [hselect, selectContextEntries_concat hu.1]
    simp only [projectEntries, mapIdx_append, mapIdx_cons, mapIdx_nil, singleton_append]
    refine ⟨_, _, rfl, rfl, rfl, ?_⟩
    simp only [hu.1, Bool.false_and]
    exact project_length_le hu.1 _
  obtain ⟨front, p, back, hsplit, hid, hlow, hhigh⟩ := split_of_entryOfMessageIndex howner
  have hsources : ((projectPath changes (pre ++ u :: post)).entries.map
      fun e => e.sourceEntry.id).Nodup := by
    simp only [projectPath]
    rw [sourceIds_projectEntries]
    exact selectContextEntries_nodup hnodup
  obtain ⟨rfl, rfl⟩ := split_unique hsources hsplit hentries (by rw [hid, hsource])
  have hmessages : (projectPath changes (pre ++ u :: post)).messages
      = (projectPath changes (pre ++ u :: post)).entries.flatMap
          ProjectedSessionEntry.messages := rfl
  rw [hmessages, hentries, hcut, flatMap_append, flatMap_append, flatMap_cons,
    flatMap_cons, flatMap_nil, append_nil, ← append_assoc]
  apply take_left'
  rw [length_append]
  omega

theorem buildSessionProjection_eq_path (hleaf : ∀ id ∈ leaf, id ∈ entries.map SessionEntry.id) :
    buildSessionProjection entries (.ofLeaf leaf) none
      = projectPath ((branchPath entries leaf).foldl applyContextChange
          (legacyBaseline entries)) (branchPath entries leaf) := by
  rw [buildSessionProjection, buildSessionPath_ofLeaf hleaf]
  rfl

/-- Where a valid usage stands on the branch and in the file. -/
theorem located_of_valid (h : AppendOrdered entries) {projection : SessionProjection}
    (hvalid : usageStillValid projection (branchPath entries leaf) entries usageId = true) :
    ∃ pre u post before after, branchPath entries leaf = pre ++ u :: post ∧
      entries = before ++ u :: after ∧ u.id = usageId ∧
      (∀ e ∈ u :: post, isUsageInvalidating e = false) ∧
      laterLegacyChange projection (branchPath entries leaf) entries u.id = false := by
  rw [usageStillValid_eq, Bool.and_eq_true, Bool.and_eq_true, Bool.not_eq_true'] at hvalid
  obtain ⟨⟨hstands, hfile⟩, hlater⟩ := hvalid
  obtain ⟨pre, u, post, hbranch, hid, hquiet⟩ := valid_of_standsAfterEdits hstands
  obtain ⟨n, hn⟩ := Option.isSome_iff_exists.mp hfile
  obtain ⟨u', hid', hentries, -⟩ := split_of_findIdx? hn
  have hmem : u ∈ entries := by
    have hin : u ∈ branchPath entries leaf := by
      rw [hbranch]
      simp
    exact ancestry_mem hin
  have hmem' : u' ∈ entries := by
    rw [hentries]
    simp
  obtain rfl : u = u' := inj_on_of_nodup_map h.tree.distinct hmem hmem' (hid.trans hid'.symm)
  exact ⟨pre, u, post, _, _, hbranch, hentries, hid, hquiet, hid ▸ hlater⟩

/-- A valid usage at a message of the projection: up to there the projection is that of
the branch as it ended at the owner of the message. -/
theorem take_of_valid (h : AppendOrdered entries)
    (hleaf : ∀ id ∈ leaf, id ∈ entries.map SessionEntry.id)
    (howner : entryOfMessageIndex
      (buildSessionProjection entries (.ofLeaf leaf) none).entries i = some usageId)
    (hvalid : usageStillValid (buildSessionProjection entries (.ofLeaf leaf) none)
      (branchPath entries leaf) entries usageId = true) :
    ∃ before u after post, entries = before ++ u :: after ∧ u.id = usageId ∧
      branchPath entries leaf = branchPath (before ++ [u]) (some u.id) ++ post ∧
      (buildSessionProjection entries (.ofLeaf leaf) none).messages.take (i + 1)
        = (buildSessionProjection (before ++ [u]) (.entry u.id) none).messages := by
  obtain ⟨pre, u, post, before, after, hbranch, hentries, hid, hquiet, hlater⟩ :=
    located_of_valid h hvalid
  have hcut : branchPath (before ++ [u]) (some u.id) = pre ++ [u] := by
    rw [ branchPath_prefix (hentries ▸ h), ← hentries]
    exact branchPath_split h hbranch
  refine ⟨before, u, after, post, hentries, hid, by rw [hbranch, hcut]; simp, ?_⟩
  have hnodup : ((pre ++ u :: post).map SessionEntry.id).Nodup := by
    rw [← hbranch]
    exact ancestry_nodup h.tree.acyclic leaf
  have hprojection := buildSessionProjection_eq_path hleaf
  have hknown : ∀ id ∈ some u.id, id ∈ (before ++ [u]).map SessionEntry.id := by simp
  have hprojection_cut := buildSessionProjection_eq_path hknown
  rw [hcut] at hprojection_cut
  have hsources := congrArg
    (fun p : SessionProjection => p.entries.map fun e => e.sourceEntry.id) hprojection
  simp only [projectPath, sourceIds_projectEntries] at hsources
  rw [hprojection, hbranch, ← hid] at howner
  change _ = (buildSessionProjection (before ++ [u]) (.ofLeaf (some u.id)) none).messages
  rw [hprojection_cut, hprojection, hbranch, take_projectPath hnodup hquiet howner]
  congr 1
  apply projectEntries_congr_on
  intro x hx
  -- `x` is shown in the whole projection
  have hshown : x.id ∈ (buildSessionProjection entries (.ofLeaf leaf) none).entries.map
      fun e => e.sourceEntry.id := by
    rw [hsources, hbranch, selectContextEntries_append fun e he =>
      (not_edit_of_valid (hquiet e he)).1]
    rw [selectContextEntries_concat (not_edit_of_valid (hquiet u mem_cons_self)).1] at hx
    apply mem_map_of_mem
    rcases List.mem_append.mp hx with hx | hx
    · exact mem_append_left _ hx
    · rw [List.mem_singleton.mp hx]
      simp
  have hdecided := settled_of_laterLegacyChange h.tree.distinct hentries hlater hshown
  have hsplit : before ++ u :: after = (before ++ [u]) ++ after := by simp
  have hpath : pre ++ u :: post = (pre ++ [u]) ++ post := by simp
  rw [hbranch, hpath] at hdecided
  rw [hentries, hsplit, hpath]
  exact get?_changes_eq (fun e he =>
    (not_edit_of_valid (hquiet e (mem_cons_of_mem u he))).2) hdecided

/-! ## The estimate -/

theorem usage_of_lastUsageBelow {messages : List AgentMessage} {n : Nat} {usage : Usage}
    (h : lastUsageBelow messages n = some (i, usage)) :
    (messages[i]?).bind getAssistantUsage = some usage := by
  induction n with
  | zero => cases h
  | succ n ih =>
    rw [lastUsageBelow] at h
    cases hn : (messages[n]?).bind getAssistantUsage with
    | none =>
      rw [hn] at h
      exact ih h
    | some found =>
      rw [hn] at h
      cases h
      exact hn

theorem usage_of_estimateContextTokens {messages : List AgentMessage}
    (h : (estimateContextTokens messages).lastUsageIndex = some i) :
    ((messages[i]?).bind getAssistantUsage).isSome := by
  unfold estimateContextTokens at h
  cases hlast : lastUsageBelow messages messages.length with
  | none =>
    rw [hlast] at h
    cases h
  | some found =>
    rw [hlast] at h
    obtain rfl := Option.some.inj h
    rw [usage_of_lastUsageBelow hlast]
    rfl

/-- The replayed system message and every other message, estimated one by one. -/
def replayedTokens (messages : List AgentMessage) : Nat :=
  ((getCurrentSystemMessage messages).map fun s => estimateTokens (.system s)).getD 0
    + sumTokens (messages.filter fun m => !m.isSystem)

theorem estimateProjectedContextTokens_eq (projection : SessionProjection)
    (branch entries : List SessionEntry) :
    estimateProjectedContextTokens projection branch entries
      = if ((estimateContextTokens projection.messages).lastUsageIndex.bind
            (entryOfMessageIndex projection.entries)).any
              (usageStillValid projection branch entries)
        then estimateContextTokens projection.messages
        else ⟨replayedTokens projection.messages, 0, replayedTokens projection.messages, none⟩ := by
  unfold estimateProjectedContextTokens
  dsimp only
  cases (estimateContextTokens projection.messages).lastUsageIndex.bind
    (entryOfMessageIndex projection.entries) <;> rfl

/-- An estimate that has a usage is the one of the messages, and its usage is valid;
another one adds up estimates. -/
theorem estimateProjectedContextTokens_cases (projection : SessionProjection)
    (branch entries : List SessionEntry) :
    (∃ i usageId, (estimateContextTokens projection.messages).lastUsageIndex = some i ∧
      entryOfMessageIndex projection.entries i = some usageId ∧
      usageStillValid projection branch entries usageId = true ∧
      estimateProjectedContextTokens projection branch entries
        = estimateContextTokens projection.messages) ∨
    estimateProjectedContextTokens projection branch entries
      = ⟨replayedTokens projection.messages, 0, replayedTokens projection.messages, none⟩ := by
  rw [estimateProjectedContextTokens_eq]
  split
  · rename_i htrusted
    rw [Option.any_eq_true] at htrusted
    obtain ⟨usageId, howner, hvalid⟩ := htrusted
    obtain ⟨i, hi, hid⟩ := Option.bind_eq_some_iff.mp howner
    exact .inl ⟨i, usageId, hi, hid, hvalid, rfl⟩
  · exact .inr rfl

/-- **Usage is trusted only while it describes the context**: a usage that the estimate
goes by is that of a message up to which the projection is what the branch showed when it
ended at the entry of the message, in the file as it was then. Otherwise the estimate
adds up the messages. -/
theorem estimateProjectedContextTokens_trusts (h : AppendOrdered entries)
    (hleaf : ∀ id ∈ leaf, id ∈ entries.map SessionEntry.id) :
    let projection := buildSessionProjection entries (.ofLeaf leaf) none
    let estimate := estimateProjectedContextTokens projection (branchPath entries leaf) entries
    (∀ i, estimate.lastUsageIndex = some i →
      ((projection.messages[i]?).bind getAssistantUsage).isSome ∧
      ∃ before u after post, entries = before ++ u :: after ∧
        entryOfMessageIndex projection.entries i = some u.id ∧
        branchPath entries leaf = branchPath (before ++ [u]) (some u.id) ++ post ∧
        projection.messages.take (i + 1)
          = (buildSessionProjection (before ++ [u]) (.entry u.id) none).messages) ∧
    (estimate.lastUsageIndex = none → estimate = ⟨replayedTokens projection.messages, 0,
      replayedTokens projection.messages, none⟩) := by
  intro projection estimate
  rcases estimateProjectedContextTokens_cases projection (branchPath entries leaf) entries with
    ⟨j, usageId, hj, howner, hvalid, heq⟩ | heq
  · have hindex : estimate.lastUsageIndex = some j := (congrArg _ heq).trans hj
    refine ⟨?_, fun hnone => by rw [hindex] at hnone; cases hnone⟩
    intro i hi
    obtain rfl : j = i := Option.some.inj (hindex.symm.trans hi)
    refine ⟨usage_of_estimateContextTokens hj, ?_⟩
    obtain ⟨before, u, after, post, hentries, rfl, hbranch, htake⟩ :=
      take_of_valid h hleaf howner hvalid
    exact ⟨before, u, after, post, hentries, howner, hbranch, htake⟩
  · refine ⟨fun i hi => ?_, fun _ => heq⟩
    rw [show estimate.lastUsageIndex = none from congrArg _ heq] at hi
    cases hi

/-- A question hidden and shown again by legacy markers, and an answer with usage. -/
def answeredFile : List SessionEntry :=
  [ .userText (.lit "q") none "question",
    ⟨.lit "hide", some (.lit "q"), 1, .prune (.lit "q") .excluded none⟩,
    ⟨.lit "show", some (.lit "hide"), 2, .prune (.lit "q") .included none⟩,
    ⟨.lit "a", some (.lit "show"), 3, .message (.assistant
      ⟨some (.blocks [.text "answer"]), "p", "m", "stop", some ⟨10, 1, 0, 0, 11⟩, 3⟩)⟩,
    .userText (.lit "r") (some (.lit "a")) "more" ]

theorem estimateProjectedContextTokens_trusts_sample :
    let projection := buildSessionProjection answeredFile (.ofLeaf (some (.lit "r"))) none
    let estimate := estimateProjectedContextTokens projection
      (branchPath answeredFile (some (.lit "r"))) answeredFile
    estimate.lastUsageIndex = some 1 ∧ ∃ before u after post, answeredFile = before ++ u :: after ∧
        entryOfMessageIndex projection.entries 1 = some u.id ∧
        branchPath answeredFile (some (.lit "r")) = branchPath (before ++ [u]) (some u.id) ++ post ∧
        projection.messages.take 2
          = (buildSessionProjection (before ++ [u]) (.entry u.id) none).messages := by
  intro projection estimate
  have hindex : estimate.lastUsageIndex = some 1 := by decide
  have hordered : AppendOrdered answeredFile := by
    unfold AppendOrdered
    decide
  have hleaf : ∀ id ∈ some (.lit "r"), id ∈ answeredFile.map SessionEntry.id := by decide
  exact ⟨hindex, ((estimateProjectedContextTokens_trusts hordered hleaf).1 1 hindex).2⟩

end ReflectivePi.Compaction
