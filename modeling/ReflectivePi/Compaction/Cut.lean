import ReflectivePi.Compaction.Prepare
import ReflectivePi.Session.Branch

/-!
# Compaction — Cut

Where the cut of `findProjectedCutPoint` can land, and what a preparation
that succeeds is made from. The statements about a compaction use only
`prepare_cases`; none of them walks the loops again.
-/

namespace ReflectivePi.Compaction

open List Option Session

/-! ## The scans -/

theorem scanBack_le (entries : List ProjectedSessionEntry) (start i : Nat) :
    scanBack entries start i ≤ i := by
  induction i with
  | zero => exact Nat.le_refl _
  | succ i ih =>
    unfold scanBack
    split
    · exact Nat.le_refl _
    · split
      · exact Nat.le_refl _
      omega

variable {start i j : Nat}

theorem le_scanBack (entries : List ProjectedSessionEntry)
    (h : start ≤ i) : start ≤ scanBack entries start i := by
  induction i with
  | zero => exact h
  | succ i ih =>
    unfold scanBack
    split
    · exact h
    · split
      · exact h
      · exact ih (by omega)

variable {entries : List ProjectedSessionEntry}

theorem findProjectedTurnStartIndex_bounds {t : Nat}
    (h : findProjectedTurnStartIndex entries start i = some t) : start ≤ t ∧ t ≤ i := by
  induction i with
  | zero =>
    unfold findProjectedTurnStartIndex at h
    split at h
    · rename_i hc
      cases h
      simp at hc
      omega
    · cases h
  | succ i ih =>
    unfold findProjectedTurnStartIndex at h
    split at h
    · cases h
    · split at h
      · cases h
        omega
      · have := ih h
        omega

theorem le_of_mem_cutPointIndices {c : Nat} (h : c ∈ cutPointIndices entries start) :
    start ≤ c := by
  simp only [cutPointIndices, mem_filter, Bool.and_eq_true, decide_eq_true_eq] at h
  exact h.2.1

theorem budgetCut_mem {first : Nat} {rest : List Nat} (exceededAt : Option Nat) :
    budgetCut (first :: rest) exceededAt first ∈ first :: rest := by
  cases exceededAt with
  | none => exact mem_cons_self
  | some i =>
    simp only [budgetCut]
    cases hf : (first :: rest).find? (fun c => decide (i ≤ c)) with
    | some c => exact mem_of_find?_eq_some hf
    | none =>
      rw [getD_none, getLast?_eq_some_getLast (by simp)]
      exact getLast_mem _

theorem le_advancedCut {keepRecentTokens first : Nat} {rest : List Nat}
    (hc : cutPointIndices entries start = first :: rest) :
    start ≤ advancedCut entries start keepRecentTokens (first :: rest)
      first := by
  have hmem : budgetCut (first :: rest)
      (budgetIndex entries start keepRecentTokens entries.length 0) first
        ∈ cutPointIndices entries start := by
    rw [hc]
    exact budgetCut_mem _
  have hle := le_of_mem_cutPointIndices hmem
  unfold advancedCut
  simp only
  split
  · exact Nat.le_succ_of_le hle
  · exact hle

/-- The cut is at or after the boundary, and the turn it splits starts
between the two. -/
theorem findProjectedCutPoint_bounds (entries : List ProjectedSessionEntry)
    (start keepRecentTokens : Nat) :
    start ≤ (findProjectedCutPoint entries start
        keepRecentTokens).firstKeptEntryIndex ∧
    ∀ t, (findProjectedCutPoint entries start
        keepRecentTokens).turnStartIndex = some t →
      start ≤ t ∧ t ≤ (findProjectedCutPoint entries start
        keepRecentTokens).firstKeptEntryIndex := by
  unfold findProjectedCutPoint
  cases hc : cutPointIndices entries start with
  | nil => simp
  | cons first rest =>
    simp only
    refine ⟨le_scanBack entries (le_advancedCut hc), ?_⟩
    intro t ht
    split at ht
    · cases ht
    · exact findProjectedTurnStartIndex_bounds ht

theorem messages_of_scanBack (hj : scanBack entries start i ≤ j)
    (hi : j < i) {e : ProjectedSessionEntry} (he : entries[j]? = some e) : e.messages = [] := by
  induction i with
  | zero => omega
  | succ i ih =>
    unfold scanBack at hj
    split at hj
    · omega
    · split at hj
      · omega
      · rename_i hempty
        by_cases hji : j = i
        · rw [hji] at he
          simp only [entryAt, he, elim_some, Bool.or_eq_true, not_or,
            Bool.not_eq_true, Bool.not_eq_false', List.isEmpty_iff] at hempty
          exact hempty.2
        · exact ih hj (by omega)

theorem silent_of_recovery {suffix : List ProjectedSessionEntry}
    (h : isRecoveryOmissionSuffix suffix = true) :
    ∀ e ∈ suffix, e.messages = [] ∨
      (sessionEntryToContextMessages e.sourceEntry).isEmpty = true := by
  intro e he
  unfold isRecoveryOmissionSuffix at h
  rw [Bool.and_eq_true, List.all_eq_true] at h
  have hall := h.2 e he
  rw [Bool.and_eq_true, Bool.or_eq_true] at hall
  rcases hall.2 with hv | ho
  · right
    unfold isIntrinsicallyVisible SessionEntry.isContextEdit at hv
    unfold sessionEntryToContextMessages at hv ⊢
    cases hk : e.sourceEntry.kind <;> simp_all
  · rw [isOmitted, Bool.and_eq_true, List.isEmpty_iff] at ho
    exact .inl ho.2

/-- **The kept range opens at a cut point**: past its start come entries
that contribute nothing, then one that shows a message a cut is valid at. -/
theorem drop_cut_shape {keepRecentTokens cut : Nat}
    (hcut : cut = (findProjectedCutPoint entries start
      keepRecentTokens).firstKeptEntryIndex) (hstart : start < cut) :
    ∃ a b, entries.drop cut = a ++ b ∧ (∀ e ∈ a, e.messages = [] ∨
        (sessionEntryToContextMessages e.sourceEntry).isEmpty = true) ∧
      ∀ y ∈ b.head?, isCutPointEntry y = true := by
  have hsplit : ∀ c, cut ≤ c → (∀ j, cut ≤ j → j < c → ∀ e, entries[j]? = some e → e.messages = [] ∨
        (sessionEntryToContextMessages e.sourceEntry).isEmpty = true) →
      (∀ y ∈ (entries.drop c).head?, isCutPointEntry y = true) →
      ∃ a b, entries.drop cut = a ++ b ∧ (∀ e ∈ a, e.messages = [] ∨
          (sessionEntryToContextMessages e.sourceEntry).isEmpty = true) ∧
        ∀ y ∈ b.head?, isCutPointEntry y = true := by
    intro c hc hempty hhead
    refine ⟨(entries.drop cut).take (c - cut), entries.drop c, ?_, ?_, hhead⟩
    · conv_lhs => rw [← take_append_drop (c - cut) (entries.drop cut),
        drop_drop, Nat.add_sub_cancel' hc]
    · intro e he
      obtain ⟨i, hi⟩ := List.mem_iff_getElem?.mp he
      rw [getElem?_take] at hi
      split at hi
      · rw [getElem?_drop] at hi
        exact hempty (cut + i) (by omega) (by omega) e hi
      · cases hi
  unfold findProjectedCutPoint at hcut
  cases hc : cutPointIndices entries start with
  | nil =>
    rw [hc] at hcut
    simp only at hcut
    omega
  | cons first rest =>
    rw [hc] at hcut
    simp only at hcut
    generalize hcand : budgetCut (first :: rest) (budgetIndex entries start
      keepRecentTokens entries.length 0) first = c
    have hpoint : entryAt entries isCutPointEntry c = true := by
      have hmem : c ∈ cutPointIndices entries start := by
        rw [hc, ← hcand]
        exact budgetCut_mem _
      rw [cutPointIndices, mem_filter, Bool.and_eq_true] at hmem
      exact hmem.2.2
    unfold advancedCut at hcut
    simp only [hcand] at hcut
    split at hcut
    · rename_i hrec
      -- the cut was advanced: nothing from it on is visible
      rw [Bool.and_eq_true] at hrec
      have hnone := silent_of_recovery hrec.2
      refine hsplit (max cut entries.length) (Nat.le_max_left _ _) ?_ ?_
      · intro j hj _ e he
        by_cases hjc : j < c + 1
        · exact .inl (messages_of_scanBack (hcut ▸ hj) hjc he)
        · apply hnone e
          refine List.mem_iff_getElem?.mpr ⟨j - (c + 1), ?_⟩
          rw [getElem?_drop, Nat.add_sub_cancel' (by omega)]
          exact he
      · rw [drop_eq_nil_of_le (Nat.le_max_right _ _)]
        simp
    · refine hsplit c (hcut ▸ scanBack_le entries start c) ?_ ?_
      · exact fun j hj hlt e he =>
          .inl (messages_of_scanBack (hcut ▸ hj) hlt he)
      · intro y hy
        rw [head?_drop] at hy
        rw [entryAt, hy] at hpoint
        exact hpoint

@[simp] theorem conversation_append (a b : List ProjectedSessionEntry) :
    conversation (a ++ b) = conversation a ++ conversation b := by
  simp [conversation]

theorem slice_append_slice {α : Type} (l : List α) {k : Nat} (hij : i ≤ j)
    (hjk : j ≤ k) : slice l i j ++ slice l j k = slice l i k := by
  have htake : l.take j = (l.take k).take j := by
    rw [take_take, Nat.min_eq_left hjk]
  simp only [slice, htake]
  generalize l.take k = l'
  by_cases hj : j ≤ l'.length
  · conv_rhs => rw [← take_append_drop j l', drop_append]
    have hzero : i - (l'.take j).length = 0 := by
      rw [length_take]
      omega
    rw [hzero, drop_zero]
  · rw [take_of_length_le (by omega), drop_eq_nil_of_le (Nat.le_of_not_le hj), append_nil]

theorem slice_append_drop {α : Type} (l : List α) (hij : i ≤ j) :
    slice l i j ++ l.drop j = l.drop i := by
  have h := slice_append_slice l hij (Nat.le_max_left j l.length)
  have htake : l.take (max j l.length) = l := take_of_length_le (Nat.le_max_right _ _)
  simpa [slice, htake] using h

/-- Only the head of a projection can be a compaction that still shows. -/
theorem isPreviousCompaction_projectEntries {changes : ContextChanges} {l : List SessionEntry}
    (h : (projectEntries changes l).findIdx? isPreviousCompaction = some i) : i = 0 := by
  cases l with
  | nil => simp [projectEntries] at h
  | cons e rest =>
    have htail : (projectTail changes rest).findIdx? isPreviousCompaction = none := by
      rw [findIdx?_eq_none_iff]
      intro x hx
      obtain ⟨y, -, rfl⟩ := List.mem_map.mp hx
      cases hy : y.isCompaction <;>
        simp [isPreviousCompaction, contribution, hy]
    rw [projectEntries_cons, findIdx?_cons, htail] at h
    split at h
    · cases h
      rfl
    · cases h

theorem conversation_take_boundaryStart (changes : ContextChanges) (l : List SessionEntry) :
    conversation ((projectEntries changes l).take
      (boundaryStart (projectEntries changes l))) = [] := by
  unfold boundaryStart
  cases hf : (projectEntries changes l).findIdx? isPreviousCompaction with
  | none => rfl
  | some i =>
    obtain rfl := isPreviousCompaction_projectEntries hf
    cases hp : projectEntries changes l with
    | nil => rfl
    | cons e rest =>
      rw [hp, findIdx?_cons] at hf
      have he : isPreviousCompaction e = true := by
        by_contra hc
        simp [hc] at hf
      have hcomp : e.sourceEntry.isCompaction = true := by
        simp only [isPreviousCompaction, Bool.and_eq_true] at he
        exact he.1
      simp [conversation, getMessagesFromProjectedEntryForCompaction, hcomp]

theorem conversation_drop_boundaryStart (changes : ContextChanges) (l : List SessionEntry) :
    conversation ((projectEntries changes l).drop (boundaryStart (projectEntries changes l)))
      = conversation (projectEntries changes l) := by
  conv_rhs => rw [← take_append_drop
    (boundaryStart (projectEntries changes l)) (projectEntries changes l)]
  rw [conversation_append, conversation_take_boundaryStart, nil_append]

theorem history_append_turnPrefix (entries : List ProjectedSessionEntry)
    {cut : CutPointResult} (hstart : start ≤ cut.firstKeptEntryIndex)
    (hturn : ∀ t, cut.turnStartIndex = some t → start ≤ t ∧ t ≤ cut.firstKeptEntryIndex) :
    conversation (slice entries start cut.historyEnd) ++ turnPrefix entries cut
      = conversation (slice entries start cut.firstKeptEntryIndex) := by
  unfold turnPrefix
  cases hs : cut.isSplitTurn with
  | false => simp [CutPointResult.historyEnd, hs]
  | true =>
    have hend : start ≤ cut.historyEnd ∧ cut.historyEnd ≤ cut.firstKeptEntryIndex := by
      simp only [CutPointResult.historyEnd, hs, if_true]
      cases ht : cut.turnStartIndex with
      | none => exact ⟨hstart, Nat.le_refl _⟩
      | some t => exact hturn t ht
    rw [if_pos rfl, ← conversation_append, slice_append_slice _ hend.1 hend.2]

theorem lt_of_conversation_slice_ne_nil
    (h : conversation (slice entries i j) ≠ []) : i < j := by
  by_contra hc
  apply h
  have : slice entries i j = [] := by
    apply drop_eq_nil_of_le
    rw [length_take]
    omega
  rw [this]
  rfl

/-- **A preparation that succeeds.** Its entry and its two message lists
are read off one cut of the projected entries, past the boundary. -/
theorem prepareCompaction_cases {path : List SessionEntry} {settings : CompactionSettings}
    {legacy : Option (InsertionMap EntryId PruneEntry)} {all : List SessionEntry}
    {P : CompactionPreparation}
    (hentries : (buildSessionProjection path .undefined legacy).entries = entries)
    (h : prepareCompaction path settings legacy all = some P) :
    ∃ cut x, cut = (findProjectedCutPoint entries (boundaryStart entries)
        settings.keepRecentTokens).firstKeptEntryIndex ∧
      boundaryStart entries < cut ∧ entries[cut]? = some x ∧
      P.firstKeptEntryId = x.sourceEntry.id ∧
      P.messagesToSummarize ++ P.turnPrefixMessages
        = conversation (slice entries (boundaryStart entries) cut) := by
  subst hentries
  unfold prepareCompaction at h
  split at h
  · cases h
  · simp only at h
    split at h
    · cases h
    · rename_i x hx
      split at h
      · cases h
      · rename_i hne
        rw [Option.some.injEq] at h
        subst h
        obtain ⟨hstart, hturn⟩ := findProjectedCutPoint_bounds
          (buildSessionProjection path .undefined legacy).entries
          (boundaryStart (buildSessionProjection path .undefined legacy).entries)
          settings.keepRecentTokens
        have hsum := history_append_turnPrefix
          (buildSessionProjection path .undefined legacy).entries hstart hturn
        refine ⟨_, x, rfl, ?_, hx, rfl, hsum⟩
        apply lt_of_conversation_slice_ne_nil
        rw [← hsum]
        intro hnil
        rw [append_eq_nil_iff] at hnil
        simp [hnil.1, hnil.2] at hne

end ReflectivePi.Compaction
