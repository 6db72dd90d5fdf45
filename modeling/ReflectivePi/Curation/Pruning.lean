import ReflectivePi.Curation.Replacing
import ReflectivePi.Curation.Steps

/-!
# Curation — Pruning

`prune_context` against its frame. Blocks are excluded one by one, each
append rebuilding the projection, but the blocks were selected once: the
excluded blocks show nothing, the other entries show what they showed,
and the recent suffix stays where it is unless an exclusion brings its
oldest block behind an exchange that block's tool result then joins.
-/

namespace ReflectivePi.Curation

open List Session ParentWalk

section

variable (stamp : SessionManager → Stamp)

/-- The loop of `execute`: a throw leaves what was appended before it. -/
def excludeBlocks (m : SessionManager) :
    List PruneBlock → SessionManager × Except String Unit
  | [] => (m, .ok ())
  | b :: blocks =>
    match setPruneState stamp m b.entryIds .excluded with
    | .ok m' => excludeBlocks m' blocks
    | .error e => (m, .error e)

/-- `prune_context`: the session after the call, and how it ended. -/
def executePrune (m : SessionManager) (ids : List String) : SessionManager × Except String Unit :=
  if ids.isEmpty then (m, .error pruneIdsError)
  else
    match selectContextBlocks m ids with
    | .error e => (m, .error e)
    | .ok selection => excludeBlocks stamp m selection.eligible

end

/-! ## What is requested -/

/-- The id of a selectable, unprotected block that one of the ids names. -/
def Eligible (m : SessionManager) (ids : List String) (id : EntryId) : Prop :=
  id ∈ (getContextBlockInventory m).blocks.map PruneBlock.id ∧
    id ∉ (getContextBlockInventory m).protectedIds ∧
    id.val ∈ ids.map trim

instance (m : SessionManager) (ids : List String) (id : EntryId) : Decidable (Eligible m ids id) :=
  inferInstanceAs (Decidable (_ ∧ _ ∧ _))

def recentIds (m : SessionManager) : List EntryId :=
  getProtectedRecentBlockIds (visibleBlocks m)

def recentGroups (m : SessionManager) : List PruneBlock :=
  (visibleGroups m).filter fun b => decide (b.id ∈ recentIds m)

/-- The blocks before the recent suffix that stay visible. -/
def olderKept (m : SessionManager) (ids : List String) : List PruneBlock :=
  (visibleGroups m).filter fun b =>
    decide (b.id ∉ recentIds m ∧ ¬ Eligible m ids b.id)

/-- The oldest recent block opens with a tool result, and the exclusions
bring it directly behind an exchange. -/
def Rejoins (m : SessionManager) (ids : List String) : Prop :=
  ∃ c ∈ (recentGroups m).head?, c.head.isRawToolResult = true ∧ ∃ b ∈ (groupPruneBlocks
      ((olderKept m ids).flatMap PruneBlock.entries)).getLast?, b.isToolExchange = true

theorem groupFrom_some_ne_nil (b : PruneBlock) (l : List SessionEntry) :
    groupFrom (some b) l ≠ [] := by
  induction l generalizing b with
  | nil => simp [groupFrom]
  | cons e l ih =>
    simp only [groupFrom]
    split
    · exact ih b
    · split
      · exact ih _
      · simp

/-- Two groupings stand side by side unless the second opens with a result
that the last block of the first takes. -/
theorem groupFrom_append {last : Option PruneBlock} {l : List SessionEntry}
    {bs : List PruneBlock} (h : Canonical bs)
    (hjoin : ∀ c ∈ bs.head?, ∀ b ∈ (groupFrom last l).getLast?,
      (c.head.isRawToolResult && b.isToolExchange) = false) :
    groupFrom last (l ++ bs.flatMap PruneBlock.entries) = groupFrom last l ++ bs := by
  induction l generalizing last with
  | nil =>
    cases last with
    | none => exact groupPruneBlocks_flatMap h
    | some b =>
      exact groupFrom_flatMap h (fun c hc => hjoin c hc b (by
        simp [groupFrom]))
  | cons e l ih =>
    simp only [cons_append, groupFrom] at hjoin ⊢
    split
    · rename_i hs
      rw [if_pos hs] at hjoin
      exact ih hjoin
    · rename_i hs
      rw [if_neg hs] at hjoin
      cases last with
      | none => exact ih hjoin
      | some b =>
        simp only at hjoin ⊢
        split
        · rename_i hr
          rw [if_pos hr] at hjoin
          exact ih hjoin
        · rename_i hr
          rw [if_neg hr, getLast?_cons_of_ne_nil (groupFrom_some_ne_nil _ l)] at hjoin
          rw [ih hjoin, cons_append]

theorem Canonical.of_append {as bs : List PruneBlock}
    (h : Canonical (as ++ bs)) : Canonical bs := by
  induction as with
  | nil => exact h
  | cons a as ih => exact ih h.2.2

theorem canonical_groupPruneBlocks (l : List SessionEntry) : Canonical (groupPruneBlocks l) :=
  canonical_groupFrom (by simp)

theorem groupPruneBlocks_ids_nodup {l : List SessionEntry} (hnd : (l.map SessionEntry.id).Nodup) :
    ((groupPruneBlocks l).map PruneBlock.id).Nodup := by
  rw [List.Nodup, pairwise_map]
  refine (entryIds_disjoint hnd).imp fun {b c} hdisj hid => ?_
  refine hdisj (mem_cons_self : b.id ∈ b.entryIds) ?_
  show b.id ∈ c.entryIds
  rw [hid]
  exact mem_cons_self

/-- The walk takes a prefix of what it is given, and once it stops inside,
what lies beyond has no say. -/
theorem protectFrom_split (blocks tokens : Nat) (l : List PruneBlock) :
    ∃ taken beyond, l = taken ++ beyond ∧ protectFrom blocks tokens l = taken.map PruneBlock.id ∧
      (beyond ≠ [] → ∀ other, protectFrom blocks tokens (taken ++ other)
          = taken.map PruneBlock.id) := by
  induction l generalizing blocks tokens with
  | nil => exact ⟨[], [], rfl, rfl, fun h => absurd rfl h⟩
  | cons b l ih =>
    by_cases hstop : maxProtectedRecentBlocks ≤ blocks + 1 ∨ maxProtectedRecentTokens
          ≤ tokens + total estimateTokens (blockMessages b)
    · refine ⟨[b], l, rfl, ?_, fun _ other => ?_⟩
      · simp only [protectFrom, if_pos hstop]
        rfl
      · simp only [cons_append, protectFrom, if_pos hstop]
        rfl
    · obtain ⟨taken, beyond, hl, htaken, hother⟩ := ih (blocks + 1)
        (tokens + total estimateTokens (blockMessages b))
      refine ⟨b :: taken, beyond, by rw [hl]; rfl, ?_, fun hne other => ?_⟩
      · simp only [protectFrom, if_neg hstop, htaken, map_cons]
      · simp only [cons_append, protectFrom, if_neg hstop, hother hne other, map_cons]

/-! ## Excluding whole blocks -/

/-- What is in force on an excluded entry. -/
def Excluded (_ : EntryId) (change : Option ResolvedContextChange) : Prop :=
  change = some (.edit none none)

section

variable {m m' : SessionManager} {touched : List EntryId}

theorem messagesOf_excluded (he : Edited m m' touched Excluded)
    (h : m.WellFormed) {t : EntryId} (ht : t ∈ touched) :
    messagesOf m'.buildSessionProjection t = [] := by
  by_cases hid : t ∈ (selectContextEntries m.getBranch).map SessionEntry.id
  · obtain ⟨e, hsel, rfl⟩ := List.mem_map.mp hid
    obtain ⟨p, hp, rfl⟩ := mem_entries_of_selected h hsel
    obtain ⟨p', hp', hsource, -, hproj, -⟩ := he.entry h hp
    rw [← hsource, messagesOf_of_mem he.wf hp']
    rcases hproj with hnil | hproj
    · exact hnil
    · have hchange : m'.contextChanges.get? p.sourceEntry.id
          = some (.edit none none) := he.done _ ht
      rw [hproj, hchange]
      rfl
  · refine messagesOf_of_not_mem he.wf fun hid' => ?_
    obtain ⟨es, -, hes, hs⟩ := he.branch
    obtain ⟨e, hsel, rfl⟩ := List.mem_map.mp hid'
    rw [hs] at hsel
    rcases List.mem_append.mp hsel with hsel | hnew
    · exact hid (mem_map_of_mem hsel)
    · -- the new entries are no targets
      obtain ⟨x, hx, hxid, -⟩ := he.targets _ ht
      exact (hes e hnew).2.2 (hxid ▸ SessionManager.id_mem_of_mem_getBranch hx)

theorem visibleEntries_excluded (he : Edited m m' touched Excluded) (h : m.WellFormed) :
    visibleEntries m'.buildSessionProjection = (visibleEntries m.buildSessionProjection).filter
          (fun e => decide (e.id ∉ touched)) := by
  obtain ⟨es, -, hes, hs⟩ := he.branch
  have hfresh : ∀ e ∈ es, e.id ∉ touched ∧
      e.id ∉ (selectContextEntries m.getBranch).map SessionEntry.id := by
    intro e hm
    have hnew := (hes e hm).2.2
    refine ⟨fun hc => ?_, fun hc => ?_⟩
    · obtain ⟨x, hx, hid, -⟩ := he.targets e.id hc
      exact hnew (hid ▸ SessionManager.id_mem_of_mem_getBranch hx)
    · obtain ⟨x, hx, hid⟩ := List.mem_map.mp hc
      exact hnew (hid ▸ SessionManager.id_mem_of_mem_getBranch
        (mem_of_mem_selectContextEntries (SessionManager.getBranch_nodup h) hx))
  have hnew : es.filter (fun e => !(messagesOf m'.buildSessionProjection e.id).isEmpty) = [] := by
    rw [filter_eq_nil_iff]
    intro e hm
    rw [he.messagesOf_kept h (hfresh e hm).1, messagesOf_of_not_mem h (hfresh e hm).2]
    simp
  rw [visibleEntries_eq he.wf, hs, List.filter_append, hnew, append_nil,
    visibleEntries_eq h, filter_filter]
  apply filter_congr
  intro e _
  by_cases ht : e.id ∈ touched
  · rw [messagesOf_excluded he h ht]
    simp [ht]
  · rw [he.messagesOf_kept h ht]
    simp [ht]

theorem filter_flatMap_entries {out : PruneBlock → Bool} {bs : List PruneBlock}
    (hout : ∀ b ∈ bs, ∀ e ∈ b.entries, (e.id ∈ touched ↔ out b = true)) :
    (bs.flatMap PruneBlock.entries).filter (fun e => decide (e.id ∉ touched))
      = (bs.filter (fun b => !out b)).flatMap PruneBlock.entries := by
  induction bs with
  | nil => rfl
  | cons b bs ih =>
    have hb := hout b mem_cons_self
    have hrest := ih (fun c hc => hout c (mem_cons_of_mem _ hc))
    rw [flatMap_cons, List.filter_append, hrest]
    cases hob : out b with
    | true =>
      have hnone : b.entries.filter (fun e => decide (e.id ∉ touched)) = [] := by
        rw [filter_eq_nil_iff]
        intro e hm
        simp [(hb e hm).mpr hob]
      rw [hnone]
      simp [hob]
    | false =>
      have hall : b.entries.filter (fun e => decide (e.id ∉ touched)) = b.entries := by
        rw [filter_eq_self]
        intro e hm
        have hnot : e.id ∉ touched := by
          rw [hb e hm, hob]
          simp
        simpa using hnot
      rw [hall]
      simp [hob]

section

variable (he : Edited m m' touched Excluded) (h : m.WellFormed)

include he h

theorem visibleGroups_excluded
    (out : PruneBlock → Bool)
    (hout : ∀ b ∈ visibleGroups m, ∀ e ∈ b.entries, (e.id ∈ touched ↔ out b = true)) :
    visibleGroups m' = groupPruneBlocks
      (((visibleGroups m).filter (fun b => !out b)).flatMap
        PruneBlock.entries) := by
  rw [← filter_flatMap_entries hout, flatMap_entries, visibleGroups,
    visibleEntries_excluded he h, filter_comm, groupPruneBlocks, groupPruneBlocks, groupFrom_filter]

theorem contributedBlock_untouched
    {b : PruneBlock} (hb : ∀ e ∈ b.entries, e.id ∉ touched) :
    contributedBlock m'.buildSessionProjection b = contributedBlock m.buildSessionProjection b := by
  have hwith : ∀ e ∈ b.entries, withProjectedMessage m'.buildSessionProjection e
        = withProjectedMessage m.buildSessionProjection e := by
    intro e hm
    rw [withProjectedMessage, withProjectedMessage, he.messagesOf_kept h (hb e hm)]
  unfold contributedBlock
  congr 1
  · exact hwith b.head mem_cons_self
  · exact map_congr_left fun e hm =>
      hwith e (mem_cons_of_mem _ hm)
  · congr 1
    apply flatMap_congr
    intro t ht
    obtain ⟨e, hm, rfl⟩ := List.mem_map.mp ht
    exact he.messagesOf_kept h (hb e hm)

theorem selectable_untouched
    {id : EntryId} (hid : id ∈ m.ids) (ht : id ∉ touched) :
    id ∈ m'.buildContextEntries.map SessionEntry.id ↔
      id ∈ m.buildContextEntries.map SessionEntry.id := by
  obtain ⟨es, -, hes, hs⟩ := he.branch
  simp only [SessionManager.buildContextEntries, SessionManager.buildContextEntriesAll_eq he.wf,
    SessionManager.buildContextEntriesAll_eq h, hs, mem_map, mem_filter, mem_append]
  constructor
  · rintro ⟨e, ⟨he', hstate⟩, rfl⟩
    rcases he' with he' | hnew
    · exact ⟨e, ⟨he', by rwa [he.kept _ ht] at hstate⟩, rfl⟩
    · exact absurd hid (hes e hnew).2.2
  · rintro ⟨e, ⟨he', hstate⟩, rfl⟩
    exact ⟨e, ⟨.inl he', by rwa [he.kept _ ht]⟩, rfl⟩

end

end

section

variable {m : SessionManager}

theorem inventory_ids_nodup (h : m.WellFormed) :
    ((getContextBlockInventory m).blocks.map PruneBlock.id).Nodup := by
  have hnd := groupPruneBlocks_ids_nodup (visible_ids_nodup h)
  have hids : (visibleBlocks m).map PruneBlock.id = (visibleGroups m).map PruneBlock.id := by
    rw [visibleBlocks, map_map]
    simp
  rw [← hids] at hnd
  exact (List.filter_sublist.map _).nodup hnd

theorem mem_eligible (h : m.WellFormed) {ids : List String}
    {s : ContextBlockSelection} (hs : selectContextBlocks m ids = .ok s) {b : PruneBlock} :
    b ∈ s.eligible ↔ b ∈ (getContextBlockInventory m).blocks ∧ Eligible m ids b.id := by
  have hsorted := sorted_foldl (getContextBlockInventory m) ids
  unfold selectContextBlocks at hs
  simp only at hs
  split at hs
  · cases hs
  cases hs
  have hseen : ∀ id, id ∈ (ids.foldl
      (SelectState.step (getContextBlockInventory m)) ⟨[], [], [], []⟩).seen ↔ _ :=
    hsorted.seen
  constructor
  · intro hb
    obtain ⟨hmem, hout⟩ := hsorted.eligible b hb
    refine ⟨hmem, mem_map_of_mem hmem, hout, ?_⟩
    refine ((hseen b.id.val).mp (hsorted.reported.mem_iff.mp ?_)).2
    exact List.mem_append.mpr (.inl (List.mem_map.mpr
      ⟨b, List.mem_append.mpr (.inl hb), rfl⟩))
  · rintro ⟨hmem, -, hout, hid⟩
    have hreported := hsorted.reported.mem_iff.mpr ((hseen b.id.val).mpr ⟨b.id.nonempty, hid⟩)
    rcases List.mem_append.mp hreported with hfound | hunknown
    · obtain ⟨c, hc, hval⟩ := List.mem_map.mp hfound
      have hcid : c.id = b.id := by
        obtain ⟨⟨v, hv⟩, hb⟩ : ∃ id, id = b.id := ⟨b.id, rfl⟩
        cases hx : c.id with
        | mk w hw =>
          rw [hx, ← hb] at hval
          subst hval
          exact hb
      rcases List.mem_append.mp hc with hc | hc
      · have hcb : c = b := inj_on_of_nodup_map (inventory_ids_nodup h)
          (hsorted.eligible c hc).1 hmem hcid
        rwa [← hcb]
      · have hp := (hsorted.protectedBlocks c hc).2
        rw [hcid] at hp
        exact absurd hp hout
    · exact absurd rfl (hsorted.unknown _ hunknown b hmem)

theorem excludeBlocks_of_foldlM {stamp : SessionManager → Stamp}
    {blocks : List PruneBlock} {m' : SessionManager}
    (h : blocks.foldlM (fun m b => setPruneState stamp m b.entryIds .excluded) m
      = .ok m') : excludeBlocks stamp m blocks = (m', .ok ()) := by
  induction blocks generalizing m with
  | nil =>
    cases h
    rfl
  | cons b rest ih =>
    rw [foldlM_cons] at h
    rw [excludeBlocks]
    cases hone : setPruneState stamp m b.entryIds .excluded with
    | error e =>
      rw [hone] at h
      cases h
    | ok m₁ =>
      rw [hone] at h
      exact ih h

/-- The call throws before it has appended anything, or excludes every
entry of the eligible blocks. -/
theorem executePrune_cases {stamp : SessionManager → Stamp} (hst : Fresh stamp)
    (h : m.WellFormed) (ids : List String) :
    (∃ e, executePrune stamp m ids = (m, .error e)) ∨
      ∃ m' s, executePrune stamp m ids = (m', .ok ()) ∧ selectContextBlocks m ids = .ok s ∧
        Edited m m' (s.eligible.flatMap PruneBlock.entryIds) Excluded := by
  unfold executePrune
  split
  · exact .inl ⟨_, rfl⟩
  · cases hs : selectContextBlocks m ids with
    | error e => exact .inl ⟨e, rfl⟩
    | ok s =>
      obtain ⟨m', hm', he⟩ := foldlM_edited (q := Excluded) h (eligible_editable h hs)
        (fun b _ m₁ h₁ hedit =>
          setPruneState_edited hst h₁ hedit .excluded (fun _ _ _ hr => hr))
      exact .inr ⟨m', s, excludeBlocks_of_foldlM hm', rfl, he⟩

theorem mem_touched (h : m.WellFormed) {ids : List String}
    {s : ContextBlockSelection} (hs : selectContextBlocks m ids = .ok s)
    {b : PruneBlock} (hb : b ∈ visibleGroups m) {e : SessionEntry} (he : e ∈ b.entries) :
    e.id ∈ s.eligible.flatMap PruneBlock.entryIds ↔ Eligible m ids b.id := by
  have hids := visible_ids_nodup h
  rw [mem_flatMap]
  constructor
  · rintro ⟨c, hc, hec⟩
    obtain ⟨hinv, helig⟩ := (mem_eligible h hs).mp hc
    obtain ⟨c₀, hc₀, rfl, -⟩ := mem_inventory hinv
    rw [entryIds_contributedBlock] at hec
    rw [block_unique hids hb hc₀ (mem_map_of_mem he) hec]
    rwa [id_contributedBlock] at helig
  · intro helig
    obtain ⟨c, hc, hcid⟩ := List.mem_map.mp helig.1
    refine ⟨c, (mem_eligible h hs).mpr ⟨hc, hcid ▸ helig⟩, ?_⟩
    obtain ⟨c₀, hc₀, rfl, -⟩ := mem_inventory hc
    rw [entryIds_contributedBlock]
    rw [id_contributedBlock] at hcid
    have hcb : c₀ = b := block_unique hids hc₀ hb (mem_cons_self : c₀.id ∈ c₀.entryIds)
      (show c₀.id ∈ b.entryIds by rw [hcid]; exact mem_cons_self)
    rw [hcb]
    exact mem_map_of_mem he

end

section

variable {m m' : SessionManager}

theorem recent_split (m : SessionManager) :
    ∃ older recent, visibleGroups m = older ++ recent ∧
      recentIds m = (recent.map PruneBlock.id).reverse ∧
      (older ≠ [] → ∀ other,
        protectFrom 0 0 ((recent.map (contributedBlock m.buildSessionProjection)).reverse ++ other)
          = recentIds m) := by
  obtain ⟨taken, beyond, hl, htaken, hother⟩ := protectFrom_split 0 0 (visibleBlocks m).reverse
  have hblocks : visibleBlocks m = beyond.reverse ++ taken.reverse := by
    rw [← reverse_append, ← hl, reverse_reverse]
  obtain ⟨older, recent, hv, holder, hrecent⟩ := List.map_eq_append_iff.mp hblocks
  have hids : taken.map PruneBlock.id = (recent.map PruneBlock.id).reverse := by
    rw [← reverse_reverse taken, ← hrecent, ← map_reverse, ← map_reverse, map_map]
    simp
  refine ⟨older, recent, hv, ?_, fun hne other => ?_⟩
  · rw [recentIds, getProtectedRecentBlockIds, htaken, hids]
  · rw [hrecent, reverse_reverse, hother ?_ other, recentIds, getProtectedRecentBlockIds, htaken]
    rintro rfl
    simp only [reverse_nil, map_eq_nil_iff] at holder
    exact hne holder

theorem recent_subset {id : EntryId} (hid : id ∈ recentIds m) :
    ∃ b ∈ visibleGroups m, b.id = id := by
  obtain ⟨older, recent, hv, hrecent, -⟩ := recent_split m
  rw [hrecent, mem_reverse] at hid
  obtain ⟨b, hb, rfl⟩ := List.mem_map.mp hid
  exact ⟨b, hv ▸ List.mem_append.mpr (.inr hb), rfl⟩

theorem mem_protectedIds_iff {id : EntryId} :
    id ∈ (getContextBlockInventory m).protectedIds ↔
      id ∈ recentIds m ∧ id ∈ m.buildContextEntries.map SessionEntry.id := by
  constructor
  · intro hid
    obtain ⟨b, hb, rfl⟩ := List.mem_map.mp hid
    obtain ⟨hb, hrecent⟩ := List.mem_filter.mp hb
    obtain ⟨-, hsel⟩ := List.mem_filter.mp hb
    exact ⟨of_decide_eq_true hrecent, of_decide_eq_true hsel⟩
  · rintro ⟨hrecent, hsel⟩
    obtain ⟨b, hb, hid⟩ := recent_subset hrecent
    rw [← id_contributedBlock m.buildSessionProjection b] at hid
    rw [← hid] at hrecent hsel ⊢
    refine mem_map_of_mem (List.mem_filter.mpr
      ⟨List.mem_filter.mpr ⟨mem_map_of_mem hb, ?_⟩, ?_⟩)
    · exact decide_eq_true hsel
    · exact decide_eq_true hrecent

theorem not_eligible_of_recent {ids : List String} {id : EntryId}
    (hid : id ∈ recentIds m) : ¬ Eligible m ids id := by
  rintro ⟨hmem, hout, -⟩
  obtain ⟨b, hb, rfl⟩ := List.mem_map.mp hmem
  exact hout ((mem_protectedIds hb).mpr hid)

/-- **The recent suffix is the same after the exclusions**, unless its
oldest block rejoins an exchange. -/
theorem recentIds_excluded (h : m.WellFormed) {ids : List String}
    {s : ContextBlockSelection} (hs : selectContextBlocks m ids = .ok s)
    (he : Edited m m' (s.eligible.flatMap PruneBlock.entryIds) Excluded)
    (hjoin : ¬ Rejoins m ids) : recentIds m' = recentIds m := by
  obtain ⟨older, recent, hv, hrecent, hwalk⟩ := recent_split m
  have hnd := groupPruneBlocks_ids_nodup (visible_ids_nodup h)
  have hvids : (visibleGroups m).map PruneBlock.id
      = older.map PruneBlock.id ++ recent.map PruneBlock.id := by
    rw [hv, map_append]
  have hin : ∀ b ∈ recent, b.id ∈ recentIds m := fun b hb => by
    rw [hrecent, mem_reverse]
    exact mem_map_of_mem hb
  have hout : ∀ b ∈ older, b.id ∉ recentIds m := fun b hb hc => by
    rw [hrecent, mem_reverse] at hc
    rw [hvids] at hnd
    exact (List.nodup_append.mp hnd).2.2 _ (mem_map_of_mem hb) _ hc rfl
  have hgroups : recentGroups m = recent := by
    rw [recentGroups, hv, List.filter_append,
      List.filter_eq_nil_iff.mpr (fun b hb => by simpa using hout b hb),
      List.filter_eq_self.mpr (fun b hb => by simpa using hin b hb), nil_append]
  have hkept : olderKept m ids = older.filter (fun b => !decide (Eligible m ids b.id)) := by
    have hnone : recent.filter (fun b =>
        decide (b.id ∉ recentIds m ∧ ¬ Eligible m ids b.id)) = [] :=
      List.filter_eq_nil_iff.mpr fun b hb => by simp [hin b hb]
    rw [olderKept, hv, List.filter_append, hnone, append_nil]
    apply filter_congr
    intro b hb
    simp [hout b hb]
  have hafter : visibleGroups m' = groupPruneBlocks
      ((olderKept m ids).flatMap PruneBlock.entries) ++ recent := by
    rw [visibleGroups_excluded he h (fun b => decide (Eligible m ids b.id))
      (fun b hb e hm => by rw [mem_touched h hs hb hm, decide_eq_true_iff]),
      hv, List.filter_append, ← hkept, List.filter_eq_self.mpr (fun b hb => by
        simpa using not_eligible_of_recent (hin b hb)), flatMap_append]
    have hcanonical : Canonical (older ++ recent) := by
      rw [← hv]
      exact canonical_groupPruneBlocks _
    refine groupFrom_append (Canonical.of_append hcanonical) ?_
    · -- a block of the older ones would take the first recent result
      intro c hc b hb
      by_contra hjoins
      rw [Bool.not_eq_false, Bool.and_eq_true] at hjoins
      exact hjoin ⟨c, hgroups ▸ hc, hjoins.1, b, hb, hjoins.2⟩
  have hsame : recent.map (contributedBlock m'.buildSessionProjection)
      = recent.map (contributedBlock m.buildSessionProjection) := by
    apply map_congr_left
    intro b hb
    refine contributedBlock_untouched he h fun e hm hc => ?_
    have hb' : b ∈ visibleGroups m := hv ▸ List.mem_append.mpr (.inr hb)
    exact not_eligible_of_recent (hin b hb) ((mem_touched h hs hb' hm).mp hc)
  rw [recentIds, getProtectedRecentBlockIds, visibleBlocks, hafter,
    map_append, hsame, reverse_append]
  by_cases hne : older = []
  · -- everything is recent and nothing was excluded
    subst hne
    rw [hkept]
    show protectFrom 0 0 (_ ++ []) = _
    rw [append_nil, recentIds, getProtectedRecentBlockIds, visibleBlocks, hv, nil_append]
  · exact hwalk hne _

end

/-- **`prune_context` changes exactly the eligible requested blocks.** A
call that throws has appended nothing. A call that returns has left the
eligible blocks showing nothing and everything else showing what it
showed, the newest visible block among it; and it protects the same blocks
as before, unless a recent result has rejoined an exchange. -/
theorem executePrune_frame {stamp : SessionManager → Stamp} (hst : Fresh stamp)
    {m : SessionManager} (h : m.WellFormed) (ids : List String) :
    match executePrune stamp m ids with
    | (m', .error _) => m' = m
    | (m', .ok _) =>
      (∀ b ∈ (getContextBlockInventory m).blocks, Eligible m ids b.id →
        ∀ t ∈ b.entryIds, messagesOf m'.buildSessionProjection t = []) ∧
      (∀ t, (∀ b ∈ (getContextBlockInventory m).blocks, Eligible m ids b.id → t ∉ b.entryIds) →
        messagesOf m'.buildSessionProjection t = messagesOf m.buildSessionProjection t) ∧
      (∀ b ∈ (visibleBlocks m).getLast?, ¬ Eligible m ids b.id ∧
        ∀ t ∈ b.entryIds, messagesOf m'.buildSessionProjection t
          = messagesOf m.buildSessionProjection t) ∧
      (¬ Rejoins m ids → ∀ id, id ∈ (getContextBlockInventory m').protectedIds ↔
          id ∈ (getContextBlockInventory m).protectedIds) := by
  rcases executePrune_cases hst h ids with ⟨e, hrun⟩ | ⟨m', s, hrun, hs, he⟩
  · rw [hrun]
  rw [hrun]
  have hrest : ∀ t, (∀ b ∈ (getContextBlockInventory m).blocks,
      Eligible m ids b.id → t ∉ b.entryIds) →
      messagesOf m'.buildSessionProjection t = messagesOf m.buildSessionProjection t := by
    intro t ht
    refine he.messagesOf_kept h fun hc => ?_
    obtain ⟨b, hb, htb⟩ := List.mem_flatMap.mp hc
    obtain ⟨hmem, helig⟩ := (mem_eligible h hs).mp hb
    exact ht b hmem helig htb
  refine ⟨?_, hrest, ?_, ?_⟩
  · intro b hb helig t ht
    exact messagesOf_excluded he h (List.mem_flatMap.mpr
      ⟨b, (mem_eligible h hs).mpr ⟨hb, helig⟩, ht⟩)
  · intro b hb
    have hmem : b ∈ visibleBlocks m := mem_of_getLast? hb
    have hnew : b.id ∈ recentIds m := by
      rw [← head?_reverse] at hb
      obtain ⟨rest, hrev⟩ := List.head?_eq_some_iff.mp hb
      rw [recentIds, getProtectedRecentBlockIds, hrev, protectFrom]
      exact mem_cons_self
    refine ⟨not_eligible_of_recent hnew, fun t ht => ?_⟩
    refine hrest t fun c hc helig htc => ?_
    obtain ⟨b₀, hb₀, rfl⟩ := List.mem_map.mp hmem
    obtain ⟨c₀, hc₀, rfl, -⟩ := mem_inventory hc
    rw [entryIds_contributedBlock] at ht htc
    rw [block_unique (visible_ids_nodup h) hb₀ hc₀ ht htc] at hnew
    exact not_eligible_of_recent hnew helig
  · intro hjoin id
    have hrecent := recentIds_excluded h hs he hjoin
    rw [mem_protectedIds_iff, mem_protectedIds_iff, hrecent]
    refine and_congr_right fun hid => ?_
    obtain ⟨b, hb, rfl⟩ := recent_subset hid
    have hhead : b.id ∈ b.entryIds := mem_cons_self
    obtain ⟨x, hx, hxid, -⟩ := editable_of_visible h hb _ hhead
    refine selectable_untouched he h (hxid ▸ SessionManager.id_mem_of_mem_getBranch hx) fun hc => ?_
    exact not_eligible_of_recent hid ((mem_touched h hs hb (e := b.head) mem_cons_self).mp hc)

/-- The result lies at the border of the recent suffix. -/
def separatedSession : SessionManager :=
  .load true "sample"
    [ ⟨.lit "0", none, 1, .message (.assistant
        { content := some (.blocks [.toolCall ⟨"c1", "read", "", none⟩])
          provider := "p", model := "m", stopReason := "toolUse", usage := none
          timestamp := 1 })⟩,
      .userText (.lit "1") (some (.lit "0")) "one",
      ⟨.lit "2", some (.lit "1"), 1, .message (.toolResult
        { toolCallId := "c1", toolName := "read"
          content := some (.text "text"), isError := false
          timestamp := 1 })⟩,
      .userText (.lit "3") (some (.lit "2")) "three",
      .userText (.lit "4") (some (.lit "3")) "four",
      .userText (.lit "5") (some (.lit "4")) "five",
      .userText (.lit "6") (some (.lit "5")) "six",
      .userText (.lit "7") (some (.lit "6")) "seven",
      .userText (.lit "8") (some (.lit "7")) "eight",
      .userText (.lit "9") (some (.lit "8")) "nine" ]

theorem separatedSession_wellFormed : separatedSession.WellFormed :=
  .of_ordered (by decide) (by decide) (by decide) (by decide)

theorem executePrune_frame_sample :
    (executePrune longerStamp separatedSession [" id-0 ", "x"]).2 = .ok () ∧
      messagesOf (executePrune longerStamp separatedSession
        [" id-0 ", "x"]).1.buildSessionProjection (.lit "0") = [] := by
  have hframe := executePrune_frame longerStamp_fresh separatedSession_wellFormed
    [" id-0 ", "x"]
  have hok : (executePrune longerStamp separatedSession
      [" id-0 ", "x"]).2 = .ok () := by decide +kernel
  refine ⟨hok, ?_⟩
  cases hrun : executePrune longerStamp separatedSession [" id-0 ", "x"] with
  | mk m' outcome =>
    rw [hrun] at hframe hok
    subst hok
    obtain ⟨b, hb, hid, helig⟩ : ∃ b ∈ (getContextBlockInventory
        separatedSession).blocks, b.id = .lit "0" ∧
        Eligible separatedSession [" id-0 ", "x"] b.id := by decide +kernel
    exact hframe.1 b hb helig _ (hid ▸ mem_cons_self)

/-- Once the request is excluded, its neighbours group as one block, and
the suffix starts at the exchange. -/
theorem separatedSession_protects_more :
    ¬ ∀ (stamp : SessionManager → Stamp), Fresh stamp →
      ∀ m : SessionManager, m.WellFormed → ∀ ids : List String, ids ≠ [] →
      (executePrune stamp m ids).2 = .ok () → ∀ id,
        id ∈ (getContextBlockInventory
          (executePrune stamp m ids).1).protectedIds ↔
          id ∈ (getContextBlockInventory m).protectedIds := by
  intro hall
  have hsame := hall longerStamp longerStamp_fresh separatedSession
    separatedSession_wellFormed [" id-1 "] (by simp) (by decide +kernel)
    (.lit "0")
  have hafter : EntryId.lit "0" ∈ (getContextBlockInventory (executePrune
      longerStamp separatedSession [" id-1 "]).1).protectedIds := by
    decide +kernel
  have hbefore : EntryId.lit "0" ∉ (getContextBlockInventory
      separatedSession).protectedIds := by decide +kernel
  exact hbefore (hsame.mp hafter)

end ReflectivePi.Curation
