import ReflectivePi.Curation.Pairing

/-!
# Curation — Shown

What each entry of the current branch shows, as a function on entries: the
form in which the pairing argument reads a session manager. The newest
compaction is moved to the front of a selection and the rest keeps its
order on the branch, so the projection is that compaction's messages
followed by the branch read entry by entry.
-/

namespace ReflectivePi.Curation

open List Session

/-! ## One entry under any change -/

variable {e : SessionEntry}

/-- What holds of the raw messages, of a summary and of a saved prompt, and
survives a content replacement, holds of everything an entry can show. -/
theorem project_induction {q : AgentMessage → Prop}
    (hraw : ∀ m ∈ sessionEntryToContextMessages e, q m)
    (hreplace : ∀ m content curation, q m →
      q (replaceMessageContent e content curation m)) (hcustom : ∀ c, q (.custom c))
    (hsystem : ∀ s, q (.system s)) (change : Option ResolvedContextChange) :
    ∀ m ∈ projectContextEntry e change, q m := by
  intro m hm
  unfold projectContextEntry at hm
  cases change with
  | none => exact hraw m hm
  | some change =>
    cases change with
    | edit replacement curation =>
      cases replacement with
      | none => cases hm
      | some content =>
        obtain ⟨x, hx, rfl⟩ := List.mem_map.mp hm
        exact hreplace x content curation (hraw x hx)
    | prune p =>
      simp only at hm
      split at hm
      · exact hraw m hm
      · cases hm
      · split at hm
        · cases hm
        · split at hm
          · cases hm
          · split at hm <;>
              simp [contextSummaryMessage, createCustomMessage] at hm
            · rcases hm with rfl | rfl
              · exact hsystem _
              · exact hcustom _
            · rw [hm]
              exact hcustom _

theorem project_of_not_raw (he : e.isRawToolResult = false)
    (change : Option ResolvedContextChange) :
    ∀ m ∈ projectContextEntry e change, m.isToolResult = false := by
  refine project_induction ?_ ?_ (fun _ => rfl) (fun _ => rfl) change
  · unfold SessionEntry.isRawToolResult at he
    unfold sessionEntryToContextMessages
    cases hk : e.kind with
    | message m => simp_all
    | compaction c => cases hs : c.systemMessage <;>
        simp [hs, AgentMessage.isToolResult]
    | branchSummary fromId summary => by_cases hs : summary = "" <;>
        simp [hs, AgentMessage.isToolResult]
    | customMessage => simp [createCustomMessage, AgentMessage.isToolResult]
    | _ => simp
  · intro m content curation hm
    unfold replaceMessageContent
    cases m with
    | toolResult r => cases hm
    | system s => cases e.kind <;> cases curation <;> rfl
    | _ => rfl

theorem project_of_compaction (he : e.isCompaction = true) (change : Option ResolvedContextChange) :
    ∀ m ∈ projectContextEntry e change, m.isToolResult = false ∧ m.isAssistant = false := by
  refine project_induction ?_ ?_ (fun _ => ⟨rfl, rfl⟩) (fun _ => ⟨rfl, rfl⟩)
    change
  · unfold SessionEntry.isCompaction at he
    unfold sessionEntryToContextMessages
    cases hk : e.kind with
    | compaction c => cases hs : c.systemMessage <;>
        simp [hs, AgentMessage.isToolResult, AgentMessage.isAssistant]
    | _ => rw [hk] at he; cases he
  · intro m content curation hm
    unfold replaceMessageContent
    cases m with
    | toolResult r => cases hm.1
    | assistant a => cases hm.2
    | system s => cases e.kind <;> cases curation <;> exact ⟨rfl, rfl⟩
    | _ => exact ⟨rfl, rfl⟩

/-- A message entry shows nothing, its message, its message under another
content, or a summary in its place. -/
theorem project_message {m : AgentMessage} (hk : e.kind = .message m)
    (change : Option ResolvedContextChange) :
    projectContextEntry e change = [] ∨
    projectContextEntry e change = [normalizeContent m] ∨
    (∃ content curation, projectContextEntry e change
      = [replaceMessageContent e content curation (normalizeContent m)]) ∨
    ∃ c, projectContextEntry e change = [.custom c] := by
  have hraw : sessionEntryToContextMessages e = [normalizeContent m] := by
    rw [sessionEntryToContextMessages, hk]
  unfold projectContextEntry
  rw [hraw]
  cases change with
  | none => exact .inr (.inl rfl)
  | some change =>
    cases change with
    | edit replacement curation =>
      cases replacement with
      | none => exact .inl rfl
      | some content => exact .inr (.inr (.inl ⟨content, curation, rfl⟩))
    | prune p =>
      simp only [hk]
      split
      · exact .inr (.inl rfl)
      · exact .inl rfl
      · split
        · exact .inl rfl
        · split
          · exact .inl rfl
          · exact .inr (.inr (.inr ⟨_, rfl⟩))

theorem project_of_result (he : e.isRawToolResult = true) (change : Option ResolvedContextChange) :
    projectContextEntry e change = [] ∨
    (∃ r, projectContextEntry e change = [.toolResult r]) ∨
    ∃ c, projectContextEntry e change = [.custom c] := by
  unfold SessionEntry.isRawToolResult at he
  cases hk : e.kind with
  | message m =>
    rw [hk] at he
    cases m with
    | toolResult r =>
      rcases project_message hk change with h | h | ⟨content, curation, h⟩ | h
      · exact .inl h
      · exact .inr (.inl ⟨_, h⟩)
      · exact .inr (.inl ⟨_, h⟩)
      · exact .inr (.inr h)
    | _ => cases he
  | _ => rw [hk] at he; cases he

theorem project_of_exchange (he : e.isToolExchange = true) (change : Option ResolvedContextChange) :
    projectContextEntry e change = [] ∨
    (∃ a, projectContextEntry e change = [.assistant a]) ∨
    ∃ c, projectContextEntry e change = [.custom c] := by
  unfold SessionEntry.isToolExchange at he
  cases hk : e.kind with
  | message m =>
    rw [hk] at he
    cases m with
    | assistant a =>
      rcases project_message hk change with h | h | ⟨content, curation, h⟩ | h
      · exact .inl h
      · exact .inr (.inl ⟨_, h⟩)
      · exact .inr (.inl ⟨_, h⟩)
      · exact .inr (.inr h)
    | _ => simp [hasToolCalls, toolCalls] at he
  | _ => rw [hk] at he; cases he

theorem shows_of_changes {shown : SessionEntry → List AgentMessage}
    (h : ∀ e, shown e = [] ∨ ∃ change, shown e = projectContextEntry e change) :
    Shows shown where
  result := by
    intro e r hr
    rcases h e with hn | ⟨change, hn⟩
    · rw [hn] at hr
      cases hr
    · rw [hn] at hr ⊢
      cases he : e.isRawToolResult with
      | false =>
        have := project_of_not_raw he change _ hr
        cases this
      | true =>
        refine ⟨rfl, ?_⟩
        rcases project_of_result he change with hp | ⟨r', hp⟩ | ⟨c, hp⟩ <;>
          rw [hp] at hr ⊢
        · cases hr
        · rw [List.mem_singleton.mp hr]
        · cases List.mem_singleton.mp hr
  noAssistant := by
    intro e he a ha
    rcases h e with hn | ⟨change, hn⟩
    · rw [hn] at ha
      cases ha
    · rw [hn] at ha
      rcases project_of_result he change with hp | ⟨r', hp⟩ | ⟨c, hp⟩ <;>
        rw [hp] at ha
      · cases ha
      · cases List.mem_singleton.mp ha
      · cases List.mem_singleton.mp ha
  exchange := by
    intro e he
    rcases h e with hn | ⟨change, hn⟩
    · exact .inl hn
    · rw [hn]
      rcases project_of_exchange he change with hp | ⟨a, hp⟩ | ⟨c, hp⟩
      · exact .inl hp
      · exact .inr ⟨_, hp, rfl⟩
      · exact .inr ⟨_, hp, rfl⟩

theorem shows_raw : Shows sessionEntryToContextMessages :=
  shows_of_changes fun _ => .inr ⟨none, rfl⟩

/-! ## The entries of a selection -/

/-- What an entry shows as a member of a selection other than its leading
compaction. -/
def shownIn (changes : ContextChanges) (selection : List SessionEntry)
    (e : SessionEntry) : List AgentMessage :=
  if e ∈ selection then contribution changes e else []

theorem shownIn_of_not_compaction {changes : ContextChanges}
    {selection : List SessionEntry} (hmem : e ∈ selection) (he : e.isCompaction = false) :
    shownIn changes selection e = projectContextEntry e (changes.get? e.id) := by
  rw [shownIn, if_pos hmem, contribution, he]
  rfl

theorem shows_shownIn (changes : ContextChanges)
    (selection : List SessionEntry) : Shows (shownIn changes selection) := by
  refine shows_of_changes fun e => ?_
  by_cases hmem : e ∈ selection
  · cases he : e.isCompaction with
    | true =>
      left
      rw [shownIn, if_pos hmem, contribution, he]
      rfl
    | false => exact .inr ⟨_, shownIn_of_not_compaction hmem he⟩
  · left
    rw [shownIn, if_neg hmem]

/-- How a selection is cut out of its path: a newest compaction in front,
and a tail that drops compactions and raw system messages only, from some
point of the path on. -/
structure SelectionShape (path selection : List SessionEntry) : Prop where
  shape : ∃ front tail before rest, selection = front ++ tail ∧
    path = before ++ rest ∧ tail.Sublist rest ∧
    (∀ e ∈ front, e.isCompaction = true ∧ e ∉ tail) ∧
    ∀ e ∈ rest, e.isCompaction = false → e.isRawSystem = false → e ∈ tail

theorem selectionShape {path : List SessionEntry} (hnd : (path.map SessionEntry.id).Nodup) :
    SelectionShape path (selectContextEntries path) := by
  rcases selectContextEntries_cases hnd with
    ⟨-, hs, -⟩ | ⟨e, c, pre, post, -, hk, hp, hpost, hs⟩
  · exact ⟨[], path, [], path, by rw [hs]; rfl, rfl, List.Sublist.refl _,
      by simp, fun _ he _ _ => he⟩
  · refine ⟨[e], _, pre.takeWhile (fun x => decide (x.id ≠ c.firstKeptEntryId)),
      pre.dropWhile (fun x => decide (x.id ≠ c.firstKeptEntryId)) ++ e :: post,
      by rw [hs]; rfl, ?_, ?_, ?_, ?_⟩
    · rw [hp, ← append_assoc, takeWhile_append_dropWhile]
    · rw [keptEntries_eq]
      exact List.filter_sublist.append (sublist_cons_self e post)
    · intro x hx
      rw [List.mem_singleton.mp hx]
      refine ⟨by simp [SessionEntry.isCompaction, hk], ?_⟩
      have hsnd := selectContextEntries_nodup hnd
      rw [hs, map_cons, nodup_cons] at hsnd
      exact fun hc => hsnd.1 (mem_map_of_mem hc)
    · intro x hx hxc hxs
      rcases List.mem_append.mp hx with hx | hx
      · rw [keptEntries_eq]
        refine List.mem_append.mpr (.inl (List.mem_filter.mpr ⟨hx, ?_⟩))
        simp [hxs]
      · rcases List.mem_cons.mp hx with rfl | hx
        · simp [SessionEntry.isCompaction, hk] at hxc
        · exact List.mem_append.mpr (.inr hx)

theorem not_isCompaction_of_isToolExchange (h : e.isToolExchange = true) :
    e.isCompaction = false := by
  unfold SessionEntry.isToolExchange at h
  unfold SessionEntry.isCompaction
  cases hk : e.kind <;> simp_all

theorem not_isCompaction_of_isRawToolResult (h : e.isRawToolResult = true) :
    e.isCompaction = false := by
  unfold SessionEntry.isRawToolResult at h
  unfold SessionEntry.isCompaction
  cases hk : e.kind <;> simp_all

theorem not_isRawSystem_of_isToolExchange (h : e.isToolExchange = true) :
    e.isRawSystem = false := by
  unfold SessionEntry.isToolExchange at h
  unfold SessionEntry.isRawSystem
  cases hk : e.kind with
  | message m => cases m <;> simp_all [hasToolCalls, toolCalls, AgentMessage.isSystem]
  | _ => rfl

theorem not_isRawSystem_of_isRawToolResult (h : e.isRawToolResult = true) :
    e.isRawSystem = false := by
  unfold SessionEntry.isRawToolResult at h
  unfold SessionEntry.isRawSystem
  cases hk : e.kind with
  | message m => cases m <;> simp_all [AgentMessage.isToolResult, AgentMessage.isSystem]
  | _ => rfl

theorem exists_result {r : SessionEntry} (hr : r.isRawToolResult = true) :
    ∃ result, .toolResult result ∈ sessionEntryToContextMessages r := by
  unfold SessionEntry.isRawToolResult at hr
  unfold sessionEntryToContextMessages
  cases hk : r.kind with
  | message m =>
    rw [hk] at hr
    cases m with
    | toolResult t => exact ⟨_, List.mem_singleton.mpr rfl⟩
    | _ => cases hr
  | _ => rw [hk] at hr; cases hr

namespace SelectionShape

variable {path selection : List SessionEntry}

theorem mem_tail {front tail : List SessionEntry} {e : SessionEntry}
    (hfront : ∀ x ∈ front, x.isCompaction = true ∧ x ∉ tail)
    (he : e.isCompaction = false) (hmem : e ∈ front ++ tail) : e ∈ tail := by
  rcases List.mem_append.mp hmem with h | h
  · rw [(hfront e h).1] at he
    cases he
  · exact h

theorem mem_of_after {before rest l₁ l₂ : List SessionEntry}
    {a x : SessionEntry} (hnd : (before ++ rest).Nodup) (ha : a ∈ rest)
    (hl : before ++ rest = l₁ ++ a :: l₂) (hx : x ∈ l₂) : x ∈ rest := by
  obtain ⟨q₁, q₂, rfl⟩ := append_of_mem ha
  have heq : (before ++ q₁) ++ a :: q₂ = l₁ ++ a :: l₂ := by
    rw [← hl, append_assoc]
  have hnd' : ((before ++ q₁) ++ a :: q₂).Nodup := by
    rwa [append_assoc]
  rw [← (append_cons_unique hnd' heq).2] at hx
  simp [hx]

theorem mem_after_of_sublist {l l' l₁ l₂ t₁ t₂ : List SessionEntry}
    {a x : SessionEntry} (hsub : l.Sublist l') (hnd : l'.Nodup)
    (hl' : l' = l₁ ++ a :: l₂) (hl : l = t₁ ++ a :: t₂) (hx : x ∈ t₂) : x ∈ l₂ := by
  have ha : a ∈ l := by
    rw [hl]
    simp
  have heq : l₁.filter (fun e => decide (e ∈ l))
      ++ a :: l₂.filter (fun e => decide (e ∈ l)) = t₁ ++ a :: t₂ := by
    rw [← hl]
    conv_rhs => rw [sublist_eq_filter hsub hnd, hl', List.filter_append,
      filter_cons_of_pos (by simpa using ha)]
  have hnd' : (l₁.filter (fun e => decide (e ∈ l))
      ++ a :: l₂.filter (fun e => decide (e ∈ l))).Nodup := by
    rw [heq, ← hl]
    exact hsub.nodup hnd
  rw [← (append_cons_unique hnd' heq).2] at hx
  exact (List.mem_filter.mp hx).1

variable {a r : SessionEntry}

section

variable (h : SelectionShape path selection) (hnd : path.Nodup)

include h hnd

/-- A selection keeps an exchange, its result and what it has selected of
the entries in between next to each other. -/
theorem place
    (hax : a.isToolExchange = true) (hres : r.isRawToolResult = true)
    {l₁ l₂ l₃ : List SessionEntry} (hp : path = l₁ ++ a :: (l₂ ++ r :: l₃))
    (ha : a ∈ selection) (hr : r ∈ selection) :
    ∃ m₁ m₂ m₃, selection = m₁ ++ a :: (m₂ ++ r :: m₃) ∧ ∀ x ∈ m₂, x ∈ l₂ := by
  obtain ⟨front, tail, before, rest, rfl, hpr, hsub, hfront, -⟩ := h.shape
  have htail : tail.Sublist path := by
    rw [hpr]
    exact hsub.trans (sublist_append_right before rest)
  have hat := mem_tail hfront (not_isCompaction_of_isToolExchange hax) ha
  have hrt := mem_tail hfront (not_isCompaction_of_isRawToolResult hres) hr
  refine ⟨front ++ l₁.filter (fun e => decide (e ∈ tail)), l₂.filter (fun e => decide (e ∈ tail)),
    l₃.filter (fun e => decide (e ∈ tail)), ?_, fun x hx => (List.mem_filter.mp hx).1⟩
  rw [append_assoc]
  congr 1
  conv_lhs => rw [sublist_eq_filter htail hnd, hp]
  simp [hat, hrt]

theorem heads
    (har : Heads path a r) (ha : a ∈ selection) (hr : r ∈ selection) : Heads selection a r := by
  obtain ⟨hax, hres, l₁, l₂, l₃, hp, ht⟩ := har
  obtain ⟨m₁, m₂, m₃, hs, hsub⟩ := h.place hnd hax hres hp ha hr
  exact ⟨hax, hres, m₁, m₂, m₃, hs, fun x hx => ht x (hsub x hx)⟩

theorem mem_of_heads
    (har : Heads path a r) (ha : a ∈ selection) : r ∈ selection := by
  obtain ⟨front, tail, before, rest, rfl, hp, hsub, hfront, hrest⟩ := h.shape
  have hat := mem_tail hfront (not_isCompaction_of_isToolExchange har.1) ha
  obtain ⟨-, hres, l₁, l₂, l₃, hl, -⟩ := har
  have hrmem : r ∈ rest := by
    refine mem_of_after (hp ▸ hnd) (hsub.subset hat) (hp.symm.trans hl) ?_
    simp
  exact List.mem_append.mpr (.inr (hrest r hrmem (not_isCompaction_of_isRawToolResult hres)
    (not_isRawSystem_of_isRawToolResult hres)))

/-- On a path whose raw results are anchored, the selection reads the same
exchanges. -/
theorem heads_path
    (hsnd : selection.Nodup) (hraw : Anchored path sessionEntryToContextMessages)
    (har : Heads selection a r) : Heads path a r := by
  have hres := har.2.1
  have hax := har.1
  obtain ⟨front, tail, before, rest, hsel, hp, hsub, hfront, hrest⟩ := h.shape
  have htail : tail.Sublist path := by
    rw [hp]
    exact hsub.trans (sublist_append_right before rest)
  have hat : a ∈ tail := mem_tail hfront (not_isCompaction_of_isToolExchange hax) (hsel ▸ har.mem.1)
  have hrt : r ∈ tail := mem_tail hfront
    (not_isCompaction_of_isRawToolResult hres) (hsel ▸ har.mem.2)
  obtain ⟨result, hresult⟩ := exists_result hres
  obtain ⟨b, hb⟩ := hraw r (htail.subset hrt) result hresult
  have hbr := hb.heads hres
  by_cases hbs : b ∈ selection
  · have hsb := h.heads hnd hbr hbs har.mem.2
    rwa [har.unique hsnd hsb]
  · exfalso
    have hbx := hbr.1
    obtain ⟨-, -, m₁, m₂, m₃, hm, hmt⟩ := hbr
    have hapath := htail.subset hat
    rw [hm] at hapath
    rcases List.mem_append.mp hapath with ha₁ | ha₁
    · -- the exchange lies before: the true one is selected after it
      obtain ⟨u, v, hu⟩ := append_of_mem ha₁
      have hbrest : b ∈ rest := by
        have hl : before ++ rest = u ++ a :: (v ++ b :: (m₂ ++ r :: m₃)) := by
          rw [← hp, hm, hu, append_assoc, cons_append]
        exact mem_of_after (hp ▸ hnd) (hsub.subset hat) hl (by simp)
      refine hbs ?_
      rw [hsel]
      exact List.mem_append.mpr (.inr (hrest b hbrest (not_isCompaction_of_isToolExchange hbx)
        (not_isRawSystem_of_isToolExchange hbx)))
    · rcases List.mem_cons.mp ha₁ with rfl | ha₁
      · exact hbs (hsel ▸ List.mem_append.mpr (.inr hat))
      · rcases List.mem_append.mp ha₁ with ha₁ | ha₁
        · exact hmt.not_mem hax ha₁
        · rcases List.mem_cons.mp ha₁ with rfl | ha₁
          · rw [SessionEntry.not_isRawToolResult_of_isToolExchange hax] at hres
            cases hres
          · -- the exchange lies after its result: not in this order
            obtain ⟨u, v, hu⟩ := append_of_mem ha₁
            obtain ⟨l₁, l₂, l₃, hl, -⟩ := har.2.2
            have hpath : path = (m₁ ++ b :: (m₂ ++ r :: u)) ++ a :: v := by
              rw [hm, hu]
              simp
            have hselsub : ∃ t₁ t₂, tail = t₁ ++ a :: t₂ ∧ r ∈ t₂ := by
              have haf : a ∉ front := fun hc => (hfront a hc).2 hat
              rw [hsel] at hl
              rcases List.append_eq_append_iff.mp hl with
                ⟨w, -, hw⟩ | ⟨w, hw, hw'⟩
              · exact ⟨w, _, hw, by simp⟩
              · cases w with
                | nil => exact ⟨[], _, hw'.symm, by simp⟩
                | cons y w =>
                  obtain ⟨rfl, -⟩ := List.cons.inj hw'
                  exact absurd (by rw [hw]; simp) haf
            obtain ⟨t₁, t₂, ht, hrt₂⟩ := hselsub
            have hrv := mem_after_of_sublist htail hnd hpath ht hrt₂
            rw [hpath] at hnd
            exact (List.nodup_append.mp hnd).2.2 r (by simp) r (mem_cons_of_mem _ hrv) rfl

end

end SelectionShape

/-- What each entry of the current branch shows, the leading compaction
apart. -/
def shown (m : SessionManager) : SessionEntry → List AgentMessage :=
  shownIn m.contextChanges (selectContextEntries m.getBranch)

theorem shows_shown (m : SessionManager) : Shows (shown m) :=
  shows_shownIn _ _

theorem flatMap_contribution_selection {path selection : List SessionEntry}
    (h : SelectionShape path selection) (hnd : path.Nodup) (changes : ContextChanges) :
    selection.flatMap (contribution changes) = path.flatMap (shownIn changes selection) := by
  obtain ⟨front, tail, before, rest, hsel, hp, hsub, hfront, -⟩ := h.shape
  have htail : tail.Sublist path := by
    rw [hp]
    exact hsub.trans (sublist_append_right before rest)
  have hnil : front.flatMap (contribution changes) = [] := by
    rw [flatMap_eq_nil_iff]
    intro e he
    rw [contribution, (hfront e he).1]
    rfl
  rw [hsel, flatMap_append, hnil, nil_append]
  conv_lhs => rw [sublist_eq_filter htail hnd, flatMap_filter]
  apply flatMap_congr
  intro e he
  rw [shownIn]
  by_cases hmem : e ∈ tail
  · simp [hmem]
  · by_cases hf : e ∈ front
    · simp [hmem, hf, contribution, (hfront e hf).1]
    · simp [hmem, hf]

/-- **The projection, entry by entry**: the leading compaction's messages,
then what each entry of the branch shows. -/
theorem messages_eq_shown {m : SessionManager} (h : m.WellFormed) :
    ∃ front, m.buildSessionProjection.messages = front ++ m.getBranch.flatMap (shown m) ∧
      ∀ x ∈ front, x.isToolResult = false ∧ x.isAssistant = false := by
  have hids := SessionManager.getBranch_nodup h
  have hnd : m.getBranch.Nodup := hids.of_map
  have hflat := flatMap_contribution_selection (selectionShape hids) hnd m.contextChanges
  rw [SessionManager.buildSessionProjection_eq h.leaf, projectPath]
  simp only
  cases hs : selectContextEntries m.getBranch with
  | nil =>
    rw [hs] at hflat
    exact ⟨[], by rw [shown, hs, ← hflat]; rfl, by simp⟩
  | cons e rest =>
    rw [hs] at hflat
    rw [projectEntries_cons, flatMap_cons, messages_projectTail, shown, hs, ← hflat, flatMap_cons]
    cases he : e.isCompaction with
    | false =>
      refine ⟨[], ?_, by simp⟩
      simp [contribution, he]
    | true =>
      exact ⟨_, by rw [contribution, he]; rfl, project_of_compaction he _⟩

end ReflectivePi.Curation
