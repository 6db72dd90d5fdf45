import ReflectivePi.Curation.Shown
import ReflectivePi.Curation.Tools

/-!
# Curation — Batch

What a validated batch of context changes does to a session: it appends
bookkeeping entries, and the change in force is a requested one on its
targets and the old one everywhere else. A batch whose targets are context
entries of the branch never fails.
-/

namespace ReflectivePi.Curation

open List Session SessionManager

/-! ## One change -/

/-- The change in force after an edit or a cancel. -/
def effect : EntryKind → Option ResolvedContextChange
  | .contextEdit _ replacement curation => some (.edit replacement curation)
  | _ => none

/-- An edit or a cancel of the given entry. -/
def Targets (t : EntryId) (kind : EntryKind) : Prop :=
  kind = .contextEditCancel t ∨ ∃ replacement curation, kind = .contextEdit t replacement curation

/-- What a requested change leaves in force on its target. -/
def Requested (change : SessionManager.ContextChange)
    (resolved : Option ResolvedContextChange) : Prop :=
  match change.state with
  | .included => resolved = none
  | .excluded => resolved = some (.edit none none)
  | .summarized => ∃ replacement, resolved = some (.edit replacement (some .summary)) ∧
        (replacement.isSome ↔ ∃ s, change.summary = some s ∧ s ≠ "")

/-- An entry of the branch that contributes to context. -/
def Editable (m : SessionManager) (t : EntryId) : Prop :=
  ∃ e ∈ m.getBranch, e.id = t ∧ e.isSilent = false

variable {m : SessionManager}

theorem getContextEditTarget_ok (h : m.WellFormed) {e : SessionEntry}
    (he : e ∈ m.getBranch) (hs : e.isSilent = false) :
    m.getContextEditTarget e.id (m.getBranch.map SessionEntry.id) = .ok e := by
  have hmem : e.id ∈ m.getBranch.map SessionEntry.id := mem_map_of_mem he
  rw [SessionEntry.isSilent] at hs
  rw [getContextEditTarget, getEntry_of_mem h (mem_of_mem_getBranch he)]
  simp only [not_true_eq_false, hmem, if_false, hs]
  rfl

variable {t : EntryId}

theorem validateContextEdit_ok {active : List EntryId} {e : SessionEntry}
    (htarget : m.getContextEditTarget t active = .ok e) {replacement : Option Content}
    {curation : Option Curation}
    (hok : (e.isRawSystem && replacement.isSome && curation.isNone) = false) :
    m.validateContextEdit t replacement curation active
      = .ok (normalizeReplacement e replacement) := by
  simp only [validateContextEdit, htarget]
  show (if _ then _ else _) = _
  rw [if_neg (by rw [hok]; exact Bool.false_ne_true)]

@[simp] theorem isSome_normalizeReplacement (target : SessionEntry) (replacement : Option Content) :
    (normalizeReplacement target replacement).isSome = replacement.isSome := by
  cases replacement with
  | none => rfl
  | some content =>
    rw [normalizeReplacement]
    split <;> rfl

theorem validateContextChange_ok (h : m.WellFormed)
    {change : SessionManager.ContextChange} (ht : Editable m change.targetId) :
    ∃ kind, m.validateContextChange (m.getBranch.map SessionEntry.id) change = .ok kind ∧
      Targets change.targetId kind ∧ Requested change (effect kind) := by
  obtain ⟨e, he, hid, hs⟩ := ht
  have htarget := getContextEditTarget_ok h he hs
  rw [hid] at htarget
  unfold validateContextChange Requested
  cases change.state with
  | included =>
    refine ⟨.contextEditCancel change.targetId, ?_, .inl rfl, rfl⟩
    simp only [htarget]
    rfl
  | excluded =>
    refine ⟨.contextEdit change.targetId none none, ?_, .inr ⟨_, _, rfl⟩, rfl⟩
    simp only
    rw [validateContextEdit_ok htarget (by simp)]
    rfl
  | summarized =>
    simp only
    rw [validateContextEdit_ok htarget (by simp)]
    refine ⟨_, rfl, .inr ⟨_, _, rfl⟩, _, rfl, ?_⟩
    rw [isSome_normalizeReplacement]
    cases change.summary with
    | none => simp
    | some s => simp

/-! ## Appending changes -/

/-- What is known after a list of edits and cancels of the `touched`
entries was appended, each leaving a change that satisfies `q`. -/
structure Edited (m m' : SessionManager) (touched : List EntryId)
    (q : EntryId → Option ResolvedContextChange → Prop) : Prop where
  wf : m'.WellFormed
  targets : ∀ t ∈ touched, Editable m t
  branch : ∃ es, m'.getBranch = m.getBranch ++ es ∧
    (∀ e ∈ es, e.isSilent = true ∧ e.isCompaction = false ∧ e.id ∉ m.ids) ∧
    selectContextEntries m'.getBranch = selectContextEntries m.getBranch ++ es
  ids : ∀ id ∈ m.ids, id ∈ m'.ids
  kept : ∀ x, x ∉ touched → m'.contextChanges.get? x = m.contextChanges.get? x
  done : ∀ x ∈ touched, q x (m'.contextChanges.get? x)

theorem Edited.refl (h : m.WellFormed) (q : EntryId → Option ResolvedContextChange → Prop) :
    Edited m m [] q :=
  ⟨h, by simp, ⟨[], by simp, by simp, by simp⟩, fun _ h => h, fun _ _ => rfl, by simp⟩

variable {q : EntryId → Option ResolvedContextChange → Prop}

theorem Edited.editable {m' : SessionManager} {touched : List EntryId}
    (h : Edited m m' touched q) : Editable m' t ↔ Editable m t := by
  obtain ⟨es, hb, hes, -⟩ := h.branch
  constructor
  · rintro ⟨e, he, hid, hs⟩
    rw [hb] at he
    rcases List.mem_append.mp he with he | he
    · exact ⟨e, he, hid, hs⟩
    · rw [(hes e he).1] at hs
      cases hs
  · rintro ⟨e, he, hid, hs⟩
    exact ⟨e, hb ▸ List.mem_append.mpr (.inl he), hid, hs⟩

theorem Edited.trans {m₁ m₂ m₃ : SessionManager} {t t' : List EntryId}
    (h : Edited m₁ m₂ t q) (h' : Edited m₂ m₃ t' q) : Edited m₁ m₃ (t ++ t') q := by
  obtain ⟨es, hb, hes, hs⟩ := h.branch
  obtain ⟨es', hb', hes', hs'⟩ := h'.branch
  refine ⟨h'.wf, ?_, ⟨es ++ es', ?_, ?_, ?_⟩, fun id hid => h'.ids id (h.ids id hid), ?_, ?_⟩
  · intro x hx
    rcases List.mem_append.mp hx with hx | hx
    · exact h.targets x hx
    · exact h.editable.mp (h'.targets x hx)
  · rw [hb', hb, append_assoc]
  · intro e he
    rcases List.mem_append.mp he with he | he
    · exact hes e he
    · obtain ⟨h1, h2, h3⟩ := hes' e he
      exact ⟨h1, h2, fun hc => h3 (h.ids _ hc)⟩
  · rw [hs', hs, append_assoc]
  · intro x hx
    rw [mem_append, not_or] at hx
    rw [h'.kept x hx.2, h.kept x hx.1]
  · intro x hx
    by_cases hx' : x ∈ t'
    · exact h'.done x hx'
    · rw [h'.kept x hx']
      exact h.done x ((List.mem_append.mp hx).resolve_right hx')

theorem get?_contextChanges_append (h : m.WellFormed) {stamp : Stamp}
    (hid : stamp.id ∉ m.ids) {kind : EntryKind} (hk : Targets t kind) (x : EntryId) :
    (m.append stamp kind).contextChanges.get? x
      = if t = x then effect kind else m.contextChanges.get? x := by
  rw [contextChanges_append h hid]
  rcases hk with rfl | ⟨r, c, rfl⟩ <;>
    simp [applyContextChange, newEntry, effect]

theorem Edited.append (h : m.WellFormed) {stamp : Stamp} (hid : stamp.id ∉ m.ids)
    {kind : EntryKind} (hk : Targets t kind) (ht : Editable m t)
    (hq : q t (effect kind)) : Edited m (m.append stamp kind) [t] q := by
  have htarget : ∀ x ∈ (m.newEntry stamp kind).changeTarget?, x ∈ m.ids := by
    obtain ⟨e, he, rfl, -⟩ := ht
    intro x hx
    rcases hk with rfl | ⟨r, c, rfl⟩ <;>
      (cases hx; exact id_mem_of_mem_getBranch he)
  have hcomp : (m.newEntry stamp kind).isCompaction = false := by
    rcases hk with rfl | ⟨r, c, rfl⟩ <;> rfl
  have hsilent : (m.newEntry stamp kind).isSilent = true := by
    rcases hk with rfl | ⟨r, c, rfl⟩ <;> rfl
  refine ⟨h.append hid htarget, ?_, ⟨[m.newEntry stamp kind],
    getBranch_append h hid kind, ?_, ?_⟩, fun id hm => by simp [hm], ?_, ?_⟩
  · intro x hx
    rwa [List.mem_singleton.mp hx]
  · intro e he
    rw [List.mem_singleton.mp he]
    exact ⟨hsilent, hcomp, hid⟩
  · rw [getBranch_append h hid, selectContextEntries_concat hcomp]
  · intro x hx
    rw [mem_singleton] at hx
    rw [get?_contextChanges_append h hid hk, if_neg (Ne.symm hx)]
  · intro x hx
    rw [mem_singleton] at hx
    rw [get?_contextChanges_append h hid hk, if_pos hx.symm, hx]
    exact hq

/-! ## A batch -/

/-- Every append draws an id that is not in use. -/
def Fresh (stamp : SessionManager → Stamp) : Prop :=
  ∀ m, (stamp m).id ∉ m.ids

def longerStamp (m : SessionManager) : Stamp :=
  ⟨SessionManager.longerId m.ids, 9⟩

theorem longerStamp_fresh : Fresh longerStamp :=
  fun m => SessionManager.longerId_fresh m.ids

theorem appendAll_edited {stamp : SessionManager → Stamp} (hst : Fresh stamp)
    (h : m.WellFormed) {changes : List SessionManager.ContextChange}
    {kinds : List EntryKind} (hedit : ∀ change ∈ changes, Editable m change.targetId)
    (hall : List.Forall₂ (fun change kind => Targets change.targetId kind ∧
      q change.targetId (effect kind)) changes kinds) :
    Edited m (m.appendAll stamp kinds)
      (changes.map SessionManager.ContextChange.targetId) q := by
  induction hall generalizing m with
  | nil => exact Edited.refl h q
  | @cons change kind changes kinds hone _ ih =>
    have hstep := Edited.append h (hst m) hone.1 (hedit change (by simp)) hone.2
    refine hstep.trans (ih hstep.wf fun c hc => ?_)
    exact hstep.editable.mpr (hedit c (mem_cons_of_mem _ hc))

theorem mapM_ok {α β ε : Type} {f : α → Except ε β} {p : α → β → Prop}
    {l : List α} (h : ∀ x ∈ l, ∃ y, f x = .ok y ∧ p x y) :
    ∃ ys, l.mapM f = .ok ys ∧ List.Forall₂ p l ys := by
  induction l with
  | nil => exact ⟨[], rfl, .nil⟩
  | cons x rest ih =>
    obtain ⟨y, hy, hp⟩ := h x (by simp)
    obtain ⟨ys, hys, hps⟩ := ih fun z hz => h z (mem_cons_of_mem _ hz)
    refine ⟨y :: ys, ?_, .cons hp hps⟩
    rw [mapM_cons, hy, hys]
    rfl

/-- **A batch of changes of context entries succeeds**, and changes
nothing else. -/
theorem appendContextChanges_edited {stamp : SessionManager → Stamp} (hst : Fresh stamp)
    (h : m.WellFormed) (changes : List SessionManager.ContextChange)
    (hedit : ∀ change ∈ changes, Editable m change.targetId)
    (hq : ∀ change ∈ changes, ∀ resolved, Requested change resolved → q change.targetId resolved) :
    ∃ m', m.appendContextChanges stamp changes = .ok m' ∧
      Edited m m' (changes.map SessionManager.ContextChange.targetId) q := by
  have hall : ∀ change ∈ changes, ∃ kind,
      m.validateContextChange (m.getBranch.map SessionEntry.id) change = .ok kind ∧
      (Targets change.targetId kind ∧ q change.targetId (effect kind)) := by
    intro change hc
    obtain ⟨kind, hv, ht, hr⟩ := validateContextChange_ok h (hedit change hc)
    exact ⟨kind, hv, ht, hq change hc _ hr⟩
  obtain ⟨kinds, hkinds, hforall⟩ := mapM_ok hall
  refine ⟨m.appendAll stamp kinds, ?_, appendAll_edited hst h hedit hforall⟩
  simp only [appendContextChanges, hkinds]
  rfl

section

variable {stamp : SessionManager → Stamp} {m : SessionManager}

theorem setPruneState_edited (hst : Fresh stamp) (h : m.WellFormed)
    {entryIds : List EntryId} (hedit : ∀ t ∈ entryIds, Editable m t) (state : PruneState)
    (hq : ∀ t ∈ entryIds, ∀ resolved, Requested { targetId := t, state } resolved → q t resolved) :
    ∃ m', setPruneState stamp m entryIds state = .ok m' ∧ Edited m m' entryIds q := by
  unfold setPruneState
  cases hids : entryIds with
  | nil => exact ⟨m, rfl, Edited.refl h q⟩
  | cons t rest =>
    rw [← hids]
    have hne : entryIds.isEmpty = false := by
      rw [hids]
      rfl
    rw [hne]
    obtain ⟨m', hm', he⟩ := appendContextChanges_edited hst h
      (entryIds.map fun targetId => { targetId, state })
      (by simpa using hedit) (q := q) (by simpa using hq)
    refine ⟨m', by simpa using hm', ?_⟩
    simpa [Function.comp_def] using he

/-- The first entry of the block carries the summary, the others are
omitted. -/
theorem setBlockSummary_edited (hst : Fresh stamp) (h : m.WellFormed)
    {head : EntryId} {tail : List EntryId}
    (hedit : ∀ t ∈ head :: tail, Editable m t) (summary : String)
    (hhead : ∀ replacement, (replacement.isSome ↔ summary ≠ "") →
      q head (some (.edit replacement (some .summary))))
    (htail : ∀ t ∈ tail, q t (some (.edit none (some .summary)))) :
    ∃ m', setBlockSummary stamp m (head :: tail) summary = .ok m' ∧
      Edited m m' (head :: tail) q := by
  have hchanges : (head :: tail).mapIdx (fun index targetId =>
      ({ targetId, state := .summarized
         summary := if index = 0 then some summary else none } :
        SessionManager.ContextChange))
      = { targetId := head, state := .summarized, summary := some summary } ::
        tail.map (fun targetId =>
          { targetId, state := .summarized, summary := none }) := by
    rw [mapIdx_cons]
    congr 1
    apply ext_getElem <;> simp
  unfold setBlockSummary
  rw [hchanges]
  obtain ⟨m', hm', he⟩ := appendContextChanges_edited hst h
    ({ targetId := head, state := .summarized, summary := some summary } ::
        tail.map (fun targetId =>
          { targetId, state := .summarized, summary := none }))
    (by simpa using hedit) (q := q) (by
      intro change hc resolved hr
      rcases List.mem_cons.mp hc with rfl | hc
      · obtain ⟨replacement, rfl, hsome⟩ := hr
        exact hhead replacement (by simpa using hsome)
      · obtain ⟨t, ht, rfl⟩ := List.mem_map.mp hc
        obtain ⟨replacement, rfl, hsome⟩ := hr
        cases replacement with
        | none => exact htail t ht
        | some content => simp at hsome)
  refine ⟨m', hm', ?_⟩
  simpa [Function.comp_def] using he

theorem foldlM_edited {w : SessionManager → PruneBlock →
      Except String SessionManager} {blocks : List PruneBlock} (h : m.WellFormed)
    (hedit : ∀ b ∈ blocks, ∀ t ∈ b.entryIds, Editable m t)
    (hw : ∀ b ∈ blocks, ∀ m' : SessionManager, m'.WellFormed → (∀ t ∈ b.entryIds, Editable m' t) →
      ∃ m'', w m' b = .ok m'' ∧ Edited m' m'' b.entryIds q) :
    ∃ m', blocks.foldlM w m = .ok m' ∧ Edited m m' (blocks.flatMap PruneBlock.entryIds) q := by
  induction blocks generalizing m with
  | nil => exact ⟨m, rfl, Edited.refl h q⟩
  | cons b rest ih =>
    obtain ⟨m₁, hm₁, he₁⟩ := hw b (by simp) m h (hedit b (by simp))
    obtain ⟨m₂, hm₂, he₂⟩ := ih he₁.wf (fun c hc t ht => he₁.editable.mpr
        (hedit c (mem_cons_of_mem _ hc) t ht))
      (fun c hc => hw c (mem_cons_of_mem _ hc))
    refine ⟨m₂, ?_, ?_⟩
    · rw [foldlM_cons, hm₁]
      exact hm₂
    · rw [flatMap_cons]
      exact he₁.trans he₂

end

end ReflectivePi.Curation
