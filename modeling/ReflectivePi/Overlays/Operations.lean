import ReflectivePi.Overlays.Focus

/-!
# Overlays — Operations

What an operation may do to the focus, the predecessors and the target of a
release, under the condition of the state before it that keeps it away from
overlays that are gone: a removed overlay is not shown again by `setHidden`,
an overlay does not leave while it is its own predecessor or the target of a
release.
-/

namespace ReflectivePi.Overlays

open List

variable {C : Type} {s s' : Tui C} {e o : Entry C} {c : C} {p : Option C}

/-! ## The topmost overlay -/

/-- Visible and capturing. -/
def Entry.captures (e : Entry C) : Bool := !e.nonCapturing && e.isOverlayVisible

theorem topmostStep_of_captures (top : Option (Entry C)) (h : o.captures = true) :
    ∃ t, Tui.topmostStep top o = some t ∧ (t = o ∨ top = some t) ∧
      o.focusOrder ≤ t.focusOrder ∧ ∀ t', top = some t' → t'.focusOrder ≤ t.focusOrder := by
  have hstep : (o.nonCapturing || !o.isOverlayVisible) = false := by
    simpa [Entry.captures] using h
  unfold Tui.topmostStep
  rw [hstep, if_neg (by simp)]
  cases top with
  | none => simp
  | some t =>
    by_cases hlt : o.focusOrder > t.focusOrder
    · refine ⟨o, if_pos hlt, .inl rfl, Nat.le_refl _, fun t' ht' => ?_⟩
      cases ht'
      omega
    · refine ⟨t, if_neg hlt, .inr rfl, by omega, fun t' ht' => ?_⟩
      cases ht'
      omega

theorem topmostStep_of_not_captures (top : Option (Entry C)) (h : o.captures = false) :
    Tui.topmostStep top o = top := by
  have hstep : (o.nonCapturing || !o.isOverlayVisible) = true := by
    simp only [Entry.captures, Bool.and_eq_false_iff, Bool.not_eq_false'] at h
    rcases h with h | h <;> simp [h]
  unfold Tui.topmostStep
  rw [hstep, if_pos rfl]

/-- The result of the search is an overlay that captures, and none that captures
is above it. -/
theorem foldl_topmostStep (stack : List (Entry C)) (top : Option (Entry C)) :
    (stack.foldl Tui.topmostStep top = none → top = none ∧ ∀ o ∈ stack, o.captures = false) ∧
    ∀ t, stack.foldl Tui.topmostStep top = some t → (top = some t ∨ t ∈ stack ∧ t.captures = true) ∧
      (∀ t', top = some t' → t'.focusOrder ≤ t.focusOrder) ∧
      ∀ o ∈ stack, o.captures = true → o.focusOrder ≤ t.focusOrder := by
  induction stack generalizing top with
  | nil =>
    refine ⟨fun h => ⟨h, by simp⟩, fun t (h : top = some t) => ⟨.inl h, ?_, by simp⟩⟩
    rw [h]
    simp
  | cons o stack ih =>
    rw [foldl_cons]
    obtain ⟨ihnone, ihsome⟩ := ih (Tui.topmostStep top o)
    cases hcaptures : o.captures with
    | false =>
      rw [topmostStep_of_not_captures top hcaptures] at ihnone ihsome ⊢
      refine ⟨fun h => ?_, fun t h => ?_⟩
      · obtain ⟨htop, hrest⟩ := ihnone h
        exact ⟨htop, List.forall_mem_cons.mpr ⟨hcaptures, hrest⟩⟩
      · obtain ⟨hfrom, hge, hrest⟩ := ihsome t h
        refine ⟨hfrom.imp id fun hmem => ⟨mem_cons_of_mem _ hmem.1, hmem.2⟩, hge, ?_⟩
        refine List.forall_mem_cons.mpr ⟨fun hyes => ?_, hrest⟩
        rw [hcaptures] at hyes
        cases hyes
    | true =>
      obtain ⟨t₀, ht₀, hsource, hle, hprevious⟩ := topmostStep_of_captures top hcaptures
      rw [ht₀] at ihnone ihsome ⊢
      refine ⟨fun h => ?_, fun t h => ?_⟩
      · exact absurd (ihnone h).1 (by simp)
      · obtain ⟨hfrom, hge, hrest⟩ := ihsome t h
        have hover : t₀.focusOrder ≤ t.focusOrder := hge t₀ rfl
        refine ⟨?_, fun t' ht' => Nat.le_trans (hprevious t' ht') hover,
          List.forall_mem_cons.mpr ⟨fun _ => Nat.le_trans hle hover, hrest⟩⟩
        rcases hfrom with heq | hmem
        · cases heq
          rcases hsource with rfl | htop
          · exact .inr ⟨mem_cons_self, hcaptures⟩
          · exact .inl htop
        · exact .inr ⟨mem_cons_of_mem _ hmem.1, hmem.2⟩

namespace Tui

theorem topmost_eq_none (h : s.getTopmostVisibleOverlay = none) :
    ∀ o ∈ s.overlayStack, o.captures = false :=
  ((foldl_topmostStep s.overlayStack none).1 h).2

theorem topmost_eq_some (h : s.getTopmostVisibleOverlay = some e) :
    e ∈ s.overlayStack ∧ e.captures = true ∧
      ∀ o ∈ s.overlayStack, o.captures = true → o.focusOrder ≤ e.focusOrder := by
  obtain ⟨hfrom, -, hmax⟩ := (foldl_topmostStep s.overlayStack none).2 e h
  rcases hfrom with hno | ⟨hmem, hcaptures⟩
  · cases hno
  · exact ⟨hmem, hcaptures, hmax⟩

end Tui

/-! ## Changes that keep the stack -/

/-- A change of an entry that leaves it where it is. -/
def Entry.InPlace (g : Entry C → Entry C) : Prop :=
  ∀ e, (g e).id = e.id ∧ (g e).component = e.component ∧ (g e).removed = e.removed ∧
    (g e).preFocus = e.preFocus

/-- A change of an entry that keeps its number and its component. -/
def Entry.Renews (g : Entry C → Entry C) : Prop :=
  ∀ e, (g e).id = e.id ∧ (g e).component = e.component

variable {g : Entry C → Entry C}

theorem Entry.InPlace.renews (h : Entry.InPlace g) :
    Entry.Renews g := fun e => ⟨(h e).1, (h e).2.1⟩

theorem Entry.InPlace.update {f : Entry C → Entry C} (h : Entry.InPlace f) (i : Nat) :
    Entry.InPlace fun e => if e.id = i then f e else e := by
  intro e
  dsimp only
  by_cases hi : e.id = i
  · rw [if_pos hi]
    exact h e
  · rw [if_neg hi]
    simp

theorem Tui.Numbered.map (h : s.Numbered) (hg : Entry.Renews g)
    (hentries : s'.entries = s.entries.map g) : s'.Numbered := by
  have hids : Entry.id ∘ g = Entry.id := funext fun e => (hg e).1
  rw [Tui.Numbered, hentries, map_map, hids, length_map]
  exact h

theorem mem_stack_map (hg : Entry.InPlace g) (hentries : s'.entries = s.entries.map g) :
    o ∈ s'.overlayStack ↔ ∃ e ∈ s.overlayStack, g e = o := by
  simp only [Tui.mem_overlayStack, hentries, mem_map]
  constructor
  · rintro ⟨⟨e, he, rfl⟩, hremoved⟩
    exact ⟨e, ⟨he, by rw [← (hg e).2.2.1]; exact hremoved⟩, rfl⟩
  · rintro ⟨e, ⟨he, hremoved⟩, rfl⟩
    exact ⟨⟨e, he, rfl⟩, by rw [(hg e).2.2.1]; exact hremoved⟩

variable [DecidableEq C] {A : Tui C → Option C → Prop}

theorem wasShown_map (hg : Entry.Renews g) (hentries : s'.entries = s.entries.map g) :
    s'.wasShown c = s.wasShown c := by
  rw [Bool.eq_iff_iff, Tui.wasShown_iff, Tui.wasShown_iff, hentries]
  constructor
  · rintro ⟨o, ho, rfl⟩
    obtain ⟨e, he, rfl⟩ := List.mem_map.mp ho
    exact ⟨e, he, (hg e).2.symm⟩
  · rintro ⟨e, he, rfl⟩
    exact ⟨g e, List.mem_map.mpr ⟨e, he, rfl⟩, (hg e).2⟩

theorem isOverlay_map (hg : Entry.InPlace g) (hentries : s'.entries = s.entries.map g) :
    s'.isOverlay c = s.isOverlay c := by
  rw [Bool.eq_iff_iff, Tui.isOverlay_iff, Tui.isOverlay_iff]
  simp only [mem_stack_map hg hentries]
  constructor
  · rintro ⟨o, ⟨e, he, rfl⟩, rfl⟩
    exact ⟨e, he, (hg e).2.1.symm⟩
  · rintro ⟨e, he, rfl⟩
    exact ⟨g e, ⟨e, he, rfl⟩, (hg e).2.1⟩

theorem Admissible.map (hA : Admissible A) (hg : Entry.InPlace g)
    (hentries : s'.entries = s.entries.map g) (h : A s p) : A s' p := by
  refine hA.transfer s s' p (fun c _ hc => ?_) (fun c hc => .inl ?_) h
  · rw [isOverlay_map hg hentries]
    exact hc
  · rwa [wasShown_map hg.renews hentries] at hc

theorem Admissible.update (hA : Admissible A) {f : Entry C → Entry C} (hf : Entry.InPlace f)
    (i : Nat) (h : A s p) : A (s.update i f) p :=
  hA.map (hf.update i) rfl h

theorem Admissible.raise (hA : Admissible A) (i : Nat) (h : A s p) : A (s.raise i) p := by
  have hraise : Entry.InPlace fun entry : Entry C =>
      { entry with focusOrder := s.focusOrderCounter + 1 } := fun _ => ⟨rfl, rfl, rfl, rfl⟩
  have hentries : (s.raise i).entries = s.entries.map fun entry =>
      if entry.id = i then { entry with focusOrder := s.focusOrderCounter + 1 } else entry := rfl
  exact hA.map (hraise.update i) hentries h

theorem Holds.map (hA : Admissible A) (h : Holds A s) (hg : Entry.InPlace g)
    (hentries : s'.entries = s.entries.map g)
    (hrestore : s'.overlayFocusRestore = s.overlayFocusRestore ∨
      s'.overlayFocusRestore = .inactive) : Holds A s' := by
  refine ⟨h.numbered.map hg.renews hentries, fun overlay heq => ?_, fun o ho => ?_,
    fun overlay blockedBy t heq hstack => ?_⟩
  · rw [hentries, length_map]
    rcases hrestore with hsame | hnone
    · rw [hsame] at heq
      exact h.known overlay heq
    · rw [hnone] at heq
      cases heq
  · obtain ⟨e, he, rfl⟩ := (mem_stack_map hg hentries).mp ho
    rw [(hg e).2.2.2]
    exact hA.map hg hentries (h.preFocus e he)
  · rcases hrestore with hsame | hnone
    · obtain ⟨o, ho, rfl⟩ := hstack
      obtain ⟨e, he, rfl⟩ := (mem_stack_map hg hentries).mp ho
      rw [hsame] at heq
      exact hA.map hg hentries (h.target _ _ _ heq ⟨e, he, (hg e).1.symm⟩)
    · rw [hnone] at heq
      cases heq

theorem Keeps.map (hA : Admissible A) (h : Keeps A s) (hg : Entry.InPlace g)
    (hentries : s'.entries = s.entries.map g)
    (hrestore : s'.overlayFocusRestore = s.overlayFocusRestore ∨ s'.overlayFocusRestore = .inactive)
    (hfocused : s'.focusedComponent = s.focusedComponent) : Keeps A s' := by
  refine ⟨h.toHolds.map hA hg hentries hrestore, ?_⟩
  rw [hfocused]
  exact hA.map hg hentries h.focused

omit [DecidableEq C] in
@[simp] theorem Tui.clearFor_entries (s : Tui C) (i : Nat) :
    (s.clearOverlayFocusRestoreFor i).entries = s.entries := by
  unfold Tui.clearOverlayFocusRestoreFor
  split <;> rfl

omit [DecidableEq C] in
@[simp] theorem Tui.clearFor_focused (s : Tui C) (i : Nat) :
    (s.clearOverlayFocusRestoreFor i).focusedComponent = s.focusedComponent := by
  unfold Tui.clearOverlayFocusRestoreFor
  split <;> rfl

namespace Keeps

section

variable (hA : Admissible A) (h : Keeps A s)

include hA h

theorem clear : Keeps A s.clearOverlayFocusRestore :=
  h.map hA (g := id) (fun _ => ⟨rfl, rfl, rfl, rfl⟩) (map_id _).symm (.inr rfl) rfl

theorem clearFor (i : Nat) :
    Keeps A (s.clearOverlayFocusRestoreFor i) := by
  unfold Tui.clearOverlayFocusRestoreFor
  split
  · exact h.clear hA
  · exact h

theorem update {f : Entry C → Entry C}
    (hf : Entry.InPlace f) (i : Nat) : Keeps A (s.update i f) :=
  h.map hA (hf.update i) rfl (.inl rfl) rfl

theorem raise (i : Nat) : Keeps A (s.raise i) :=
  have hraise : Entry.InPlace fun entry : Entry C =>
      { entry with focusOrder := s.focusOrderCounter + 1 } := fun _ => ⟨rfl, rfl, rfl, rfl⟩
  h.map hA (hraise.update i) rfl (.inl rfl) rfl

end

theorem component (hA : Admissible A) (he : e ∈ s.overlayStack) : A s (some e.component) :=
  hA.stacked s _ (Tui.isOverlay_iff.mpr ⟨e, he, rfl⟩)

theorem fallback (hA : Admissible A) (h : s.getTopmostVisibleOverlay = none → A s e.preFocus) :
    A s (s.fallback e) := by
  unfold Tui.fallback
  split
  case h_1 top htop => exact component hA (Tui.topmost_eq_some htop).1
  case h_2 hnone => exact h hnone

end Keeps

/-! ## Overlays that leave -/

namespace Tui

/-- No other overlay of the stack has the component of the entry. -/
def isLastOf (s : Tui C) (e : Entry C) : Bool :=
  s.overlayStack.all fun o => o.component ≠ e.component || o.id = e.id

/-- The target of a release that is pending for another overlay than the entry. -/
def pendingTarget (s : Tui C) (e : Entry C) : Option C :=
  match s.overlayFocusRestore with
  | .blocked overlay _ (.focusTarget target) => if overlay = e.id then none else target
  | _ => none

/-- The entry is not what it leaves behind: as its own predecessor, or as the
target of a pending release. -/
def isRemovable (s : Tui C) (e : Entry C) : Bool :=
  !s.isLastOf e || (e.preFocus ≠ some e.component && s.pendingTarget e ≠ some e.component)

/-- What `splice` makes of an entry. -/
def spliced (e o : Entry C) : Entry C :=
  if o.id = e.id then { o with removed := true }
  else if !o.removed && o.preFocus = some e.component then { o with preFocus := e.preFocus }
  else o

theorem splice_entries (s : Tui C) (e : Entry C) :
    (s.splice e).entries = s.entries.map (spliced e) := by
  simp only [splice, update, retargetOverlayPreFocus, clearFor_entries, map_map]
  refine map_congr_left fun o _ => ?_
  simp only [Function.comp, spliced]
  by_cases hid : o.id = e.id
  · simp [hid]
  · by_cases hpre : o.removed = false ∧ o.preFocus = some e.component
    · simp [hid, hpre]
    · have : ¬ ((!o.removed && decide (o.id ≠ e.id)
          && decide (o.preFocus = some e.component)) = true) := by
        simpa [hid] using hpre
      rw [if_neg this]
      have hneg : ¬ ((!o.removed && decide (o.preFocus = some e.component)) = true) := by
        simpa using hpre
      rw [if_neg hid, if_neg hid, if_neg hneg]

theorem renews_spliced (e : Entry C) : Entry.Renews (spliced e) := by
  intro o
  unfold spliced
  split
  · exact ⟨rfl, rfl⟩
  · split <;> exact ⟨rfl, rfl⟩

theorem mem_stack_splice :
    o ∈ (s.splice e).overlayStack ↔ ∃ o' ∈ s.overlayStack, o'.id ≠ e.id ∧ spliced e o' = o := by
  simp only [mem_overlayStack, splice_entries, mem_map]
  constructor
  · rintro ⟨⟨o', ho', rfl⟩, hremoved⟩
    unfold spliced at hremoved
    split at hremoved
    · cases hremoved
    case isFalse hid =>
      refine ⟨o', ⟨ho', ?_⟩, hid, rfl⟩
      split at hremoved <;> exact hremoved
  · rintro ⟨o', ⟨ho', hremoved⟩, hid, rfl⟩
    refine ⟨⟨o', ho', rfl⟩, ?_⟩
    rw [spliced, if_neg hid]
    split <;> exact hremoved

@[simp] theorem splice_focused : (s.splice e).focusedComponent = s.focusedComponent := by
  unfold splice update retargetOverlayPreFocus clearOverlayFocusRestoreFor
  split <;> rfl

theorem splice_restore :
    (s.splice e).overlayFocusRestore = if s.overlayFocusRestore.overlay? = some e.id then .inactive
      else s.overlayFocusRestore := by
  unfold splice update retargetOverlayPreFocus clearOverlayFocusRestoreFor
  split <;> rfl

@[simp] theorem splice_mounted : (s.splice e).mounted = s.mounted := by
  unfold splice update retargetOverlayPreFocus clearOverlayFocusRestoreFor
  split <;> rfl

theorem isLastOf_iff :
    s.isLastOf e = true ↔ ∀ o ∈ s.overlayStack, o.component = e.component → o.id = e.id := by
  simp only [isLastOf, all_eq_true, Bool.or_eq_true, decide_eq_true_eq]
  refine forall_congr' fun o => imp_congr_right fun _ => ?_
  exact ⟨fun h heq => h.resolve_left (not_not.mpr heq), fun h => Decidable.not_or_of_imp h⟩

end Tui

/-- Leaving the stack costs the component of the entry its place, if no other
overlay has it. -/
theorem Admissible.splice (hA : Admissible A) (hs : s.Numbered) (he : e ∈ s.overlayStack)
    (h : A s p) (hp : s.isLastOf e = true → p ≠ some e.component) : A (s.splice e) p := by
  refine hA.transfer s _ p (fun c hc hover => ?_) (fun c hshown => .inl ?_) h
  · obtain ⟨o, ho, rfl⟩ := Tui.isOverlay_iff.mp hover
    have hstays : ∀ o' ∈ s.overlayStack, o'.component = o.component → o'.id ≠ e.id →
        (s.splice e).isOverlay o.component = true := by
      intro o' ho' hcomp hid
      refine Tui.isOverlay_iff.mpr ⟨_, Tui.mem_stack_splice.mpr ⟨o', ho', hid, rfl⟩, ?_⟩
      rw [(Tui.renews_spliced e o').2, hcomp]
    by_cases hid : o.id = e.id
    · have hoe : o = e := hs.eq_of_id (Tui.mem_overlayStack.mp ho).1
        (Tui.mem_overlayStack.mp he).1 hid
      rw [hoe] at hc
      have hnot : ¬ s.isLastOf e = true := fun hlast => hp hlast hc
      rw [Tui.isLastOf_iff] at hnot
      push Not at hnot
      obtain ⟨o', ho', hcomp, hne⟩ := hnot
      exact hstays o' ho' (by rw [hcomp, hoe]) hne
    · exact hstays o ho rfl hid
  · rwa [wasShown_map (Tui.renews_spliced e) (s.splice_entries e)] at hshown

theorem isRemovable_spec (h : s.isRemovable e = true) (hlast : s.isLastOf e = true) :
    e.preFocus ≠ some e.component ∧ s.pendingTarget e ≠ some e.component := by
  simpa [Tui.isRemovable, hlast] using h

theorem Holds.splice (hA : Admissible A) (h : Holds A s) (he : e ∈ s.overlayStack)
    (hremovable : s.isRemovable e = true) : Holds A (s.splice e) := by
  refine ⟨h.numbered.map (Tui.renews_spliced e) (s.splice_entries e), fun overlay heq => ?_,
    fun o ho => ?_, fun overlay blockedBy t heq hstack => ?_⟩
  · rw [Tui.splice_entries, length_map]
    rw [Tui.splice_restore] at heq
    split at heq
    · cases heq
    · exact h.known overlay heq
  · obtain ⟨o', ho', hid, rfl⟩ := Tui.mem_stack_splice.mp ho
    have hstays : o'.removed = false := (Tui.mem_overlayStack.mp ho').2
    rw [Tui.spliced, if_neg hid, hstays]
    by_cases hpre : o'.preFocus = some e.component
    · simp only [hpre, Bool.not_false, decide_true, Bool.and_self, if_true]
      exact hA.splice h.numbered he (h.preFocus e he)
        fun hlast => (isRemovable_spec hremovable hlast).1
    · simp only [hpre, Bool.not_false, decide_false, Bool.and_false, Bool.false_eq_true, if_false]
      exact hA.splice h.numbered he (h.preFocus o' ho') fun _ => hpre
  · rw [Tui.splice_restore] at heq
    split at heq
    · cases heq
    case isFalse hother =>
      have hne : overlay ≠ e.id := by
        rintro rfl
        exact hother (by rw [heq]; rfl)
      obtain ⟨o, ho, hoid⟩ := hstack
      obtain ⟨o', ho', -, rfl⟩ := Tui.mem_stack_splice.mp ho
      have ht := h.target _ _ _ heq ⟨o', ho', ((Tui.renews_spliced e o').1.symm.trans hoid)⟩
      refine hA.splice h.numbered he ht fun hlast => ?_
      have hpending : s.pendingTarget e = t := by
        rw [Tui.pendingTarget, heq]
        exact if_neg hne
      rw [← hpending]
      exact (isRemovable_spec hremovable hlast).2

namespace Keeps

/-- **An overlay leaves the stack.** -/
theorem removeOverlay (hA : Admissible A) (h : Keeps A s) (he : e ∈ s.overlayStack)
    (hremovable : s.isRemovable e = true) : Keeps A (s.removeOverlay e) := by
  have hsplice := h.toHolds.splice hA he hremovable
  unfold Tui.removeOverlay
  dsimp only
  split
  · refine hsplice.setFocus hA (fallback hA fun _ => ?_)
    exact hA.splice h.numbered he (h.preFocus e he)
      fun hlast => (isRemovable_spec hremovable hlast).1
  case isFalse hfocus =>
    rw [Tui.splice_focused] at hfocus
    refine ⟨hsplice, ?_⟩
    rw [Tui.splice_focused]
    exact hA.splice h.numbered he h.focused fun _ => hfocus

end Keeps

end ReflectivePi.Overlays
