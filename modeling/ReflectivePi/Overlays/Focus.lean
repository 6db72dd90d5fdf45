import Mathlib.Data.List.Nodup
import ReflectivePi.Overlays.Stack

/-!
# Overlays — Focus

Where `setFocus` can take the focus, and which components the focus stays
among: what holds of the focus, of every remembered predecessor and of the
target of a release survives the operations, as long as it holds of the
components of the stack and is lost only with a component that leaves it.
-/

namespace ReflectivePi.Overlays

open List

variable {C : Type} {s s' : Tui C} {e o : Entry C} {c : C} {p : Option C}
  {policy : FocusRestorePolicy}

namespace Tui

theorem mem_overlayStack : e ∈ s.overlayStack ↔ e ∈ s.entries ∧ e.removed = false := by
  simp [overlayStack]

theorem mem_of_entry? {i : Nat} (h : s.entry? i = some e) : e ∈ s.entries ∧ e.id = i := by
  refine ⟨mem_of_find?_eq_some h, ?_⟩
  simpa using find?_some h

/-! ## Identities -/

/-- The entries are numbered in the order of creation. -/
def Numbered (s : Tui C) : Prop := s.entries.map Entry.id = List.range s.entries.length

theorem Numbered.eq_of_id (h : s.Numbered) (he : e ∈ s.entries) (ho : o ∈ s.entries)
    (hid : e.id = o.id) : e = o := by
  have hnodup : (s.entries.map Entry.id).Nodup := by
    rw [h]
    exact nodup_range
  exact inj_on_of_nodup_map hnodup he ho hid

theorem Numbered.id_lt (h : s.Numbered) (he : e ∈ s.entries) : e.id < s.entries.length := by
  have hmem : e.id ∈ s.entries.map Entry.id := List.mem_map.mpr ⟨e, he, rfl⟩
  rw [h] at hmem
  exact List.mem_range.mp hmem

theorem Numbered.entry? (h : s.Numbered) (he : e ∈ s.entries) : s.entry? e.id = some e := by
  have hsome : (s.entry? e.id).isSome := by
    rw [Tui.entry?, find?_isSome]
    exact ⟨e, he, by simp⟩
  obtain ⟨o, ho⟩ := Option.isSome_iff_exists.mp hsome
  obtain ⟨hmem, hid⟩ := mem_of_entry? ho
  rw [ho, h.eq_of_id hmem he hid]

theorem isVisibleInStack_iff {i : Nat} :
    s.isVisibleInStack i = true ↔ ∃ e ∈ s.overlayStack, e.id = i ∧ e.isOverlayVisible = true := by
  simp [isVisibleInStack]

theorem getVisible_eq_blocked {i : Nat} {resume : Resume C} :
    s.getVisibleOverlayFocusRestore = .blocked i c resume ↔
      s.overlayFocusRestore = .blocked i c resume ∧ s.isVisibleInStack i = true := by
  unfold getVisibleOverlayFocusRestore
  cases s.overlayFocusRestore with
  | inactive => simp
  | eligible overlay => by_cases h : s.isVisibleInStack overlay <;> simp [h]
  | blocked overlay blockedBy r =>
    by_cases h : s.isVisibleInStack overlay
    · simp only [h, if_true, FocusRestore.blocked.injEq]
      constructor
      · rintro ⟨rfl, rfl, rfl⟩
        exact ⟨⟨rfl, rfl, rfl⟩, h⟩
      · exact fun hboth => hboth.1
    · simp only [h, Bool.false_eq_true, if_false, FocusRestore.blocked.injEq]
      constructor
      · intro hno
        cases hno
      · rintro ⟨⟨rfl, rfl, rfl⟩, hvisible⟩
        exact absurd hvisible h

theorem getVisible_eq_eligible {i : Nat} :
    s.getVisibleOverlayFocusRestore = .eligible i ↔
      s.overlayFocusRestore = .eligible i ∧ s.isVisibleInStack i = true := by
  unfold getVisibleOverlayFocusRestore
  cases s.overlayFocusRestore with
  | inactive => simp
  | eligible overlay =>
    by_cases h : s.isVisibleInStack overlay
    · simp only [h, if_true, FocusRestore.eligible.injEq]
      constructor
      · rintro rfl
        exact ⟨rfl, h⟩
      omega
    · simp only [h, Bool.false_eq_true, if_false, FocusRestore.eligible.injEq]
      constructor
      · intro hno
        cases hno
      · rintro ⟨rfl, hvisible⟩
        exact absurd hvisible h
  | blocked overlay blockedBy r => by_cases h : s.isVisibleInStack overlay <;> simp [h]

theorem Numbered.restored (h : s.Numbered) {i : Nat} (hvisible : s.isVisibleInStack i = true) :
    ∃ e ∈ s.overlayStack, s.entry? i = some e ∧ e.isOverlayVisible = true := by
  obtain ⟨e, he, rfl, hvis⟩ := isVisibleInStack_iff.mp hvisible
  exact ⟨e, he, h.entry? (mem_overlayStack.mp he).1, hvis⟩

variable [DecidableEq C]

/-! ## Components of overlays -/

/-- Some overlay ever shown has the component. -/
def wasShown (s : Tui C) (c : C) : Bool := s.entries.any fun entry => entry.component = c

/-- Every overlay of the component is removed. -/
def isGone (s : Tui C) (c : C) : Bool := s.wasShown c && !s.isOverlay c

/-- Every overlay of the component is hidden, not visible or removed. -/
def isDead (s : Tui C) (c : C) : Bool :=
  s.wasShown c && !s.overlayStack.any fun entry => entry.component = c && entry.isOverlayVisible

theorem isOverlay_iff : s.isOverlay c = true ↔ ∃ e ∈ s.overlayStack, e.component = c := by
  simp [isOverlay]

theorem wasShown_iff : s.wasShown c = true ↔ ∃ e ∈ s.entries, e.component = c := by
  simp [wasShown]

theorem wasShown_of_isOverlay (h : s.isOverlay c = true) : s.wasShown c = true := by
  obtain ⟨e, he, hcomp⟩ := isOverlay_iff.mp h
  exact wasShown_iff.mpr ⟨e, (mem_overlayStack.mp he).1, hcomp⟩

theorem isGone_eq_false : s.isGone c = false ↔ (s.wasShown c = true → s.isOverlay c = true) := by
  simp only [isGone, Bool.and_eq_false_iff, Bool.not_eq_false']
  cases s.wasShown c <;> simp

theorem isDead_eq_false :
    s.isDead c = false ↔ (s.wasShown c = true →
      ∃ e ∈ s.overlayStack, e.component = c ∧ e.isOverlayVisible = true) := by
  simp only [isDead, Bool.and_eq_false_iff, Bool.not_eq_false', any_eq_true,
    Bool.and_eq_true, decide_eq_true_eq]
  cases s.wasShown c <;> simp

/-! ## Where the focus goes -/

/-- The three places a call can take the focus to: the one asked for, the overlay
that was blocked, the target of a release. -/
inductive Goes (s : Tui C) (p : Option C) : Option C → FocusRestore C → Prop where
  | asked {restore : FocusRestore C} (h : restore = s.overlayFocusRestore ∨ restore = .inactive ∨
        ∃ overlay next, s.overlayFocusRestore.overlay? = some overlay ∧ p = some next ∧
          restore = .blocked overlay next .restoreOverlay) :
      Goes s p p restore
  | restored {overlay : Nat} {blockedBy : C}
      (h : s.getVisibleOverlayFocusRestore = .blocked overlay blockedBy .restoreOverlay)
      (hfocus : s.focusedComponent = some blockedBy) :
      Goes s p ((s.entry? overlay).map Entry.component) s.overlayFocusRestore
  | released {overlay : Nat} {blockedBy : C} {target : Option C}
      (h : s.getVisibleOverlayFocusRestore = .blocked overlay blockedBy (.focusTarget target))
      (hfocus : s.focusedComponent = some blockedBy) :
      Goes s p target .inactive

theorem goes_blockRestore {overlay : Nat}
    (hoverlay : s.overlayFocusRestore.overlay? = some overlay) (next : C) :
    Goes s (some next) (s.blockRestore overlay next).1 (s.blockRestore overlay next).2 := by
  unfold blockRestore
  split
  · split
    · exact .asked (.inr (.inr ⟨_, _, hoverlay, rfl, rfl⟩))
    · exact .asked (.inl rfl)
  · exact .asked (.inl rfl)

omit [DecidableEq C] in
theorem goes_resolve {overlay : Nat} {blockedBy : C} {resume : Resume C}
    (h : s.getVisibleOverlayFocusRestore = .blocked overlay blockedBy resume)
    (hfocus : s.focusedComponent = some blockedBy) :
    Goes s p (s.resolveBlockedOverlayFocusResume overlay resume).1
      (s.resolveBlockedOverlayFocusResume overlay resume).2 := by
  cases resume with
  | restoreOverlay => exact .restored h hfocus
  | focusTarget target => exact .released h hfocus

theorem goes_nextFocus (s : Tui C) (p : Option C) (policy : FocusRestorePolicy) :
    Goes s p (s.nextFocus p policy).1 (s.nextFocus p policy).2 := by
  cases p with
  | none =>
    have hcleared : Goes s none none
        (if policy = .clear then .inactive else s.overlayFocusRestore) := by
      by_cases hpolicy : policy = .clear
      · exact .asked (.inr (.inl (if_pos hpolicy)))
      · exact .asked (.inl (if_neg hpolicy))
    simp only [nextFocus]
    split
    case h_1 overlay blockedBy resume hrestore =>
      split
      case isTrue hfocus => exact goes_resolve hrestore hfocus
      omega
    case h_2 => exact hcleared
  | some next =>
    simp only [nextFocus]
    split
    · exact .asked (.inl rfl)
    · split
      case h_1 => exact .asked (.inl rfl)
      case h_2 overlay hrestore =>
        refine goes_blockRestore ?_ next
        rw [(getVisible_eq_eligible.mp hrestore).1]
        rfl
      case h_3 overlay blockedBy resume hrestore =>
        have hoverlay : s.overlayFocusRestore.overlay? = some overlay := by
          rw [(getVisible_eq_blocked.mp hrestore).1]
          rfl
        split
        case isFalse => exact goes_blockRestore hoverlay next
        case isTrue hfocus =>
          split
          case isTrue => exact goes_resolve hrestore hfocus
          case isFalse hstay =>
            simp only [ne_eq, Bool.or_eq_true, decide_eq_true_eq, not_or, not_not] at hstay
            rw [hstay.1]
            exact .asked (.inr (.inr ⟨_, _, hoverlay, rfl, rfl⟩))

theorem nextFocus_of_isOverlay (h : s.isOverlay c = true) :
    s.nextFocus (some c) policy = (some c, s.overlayFocusRestore) := by
  simp only [nextFocus]
  rw [if_pos h]

theorem setFocusInternal_focused :
    (s.setFocusInternal p policy).focusedComponent = (s.nextFocus p policy).1 := rfl

end Tui

/-! ## What the focus stays among -/

/-- A property of components that may have the focus: the overlays of the stack
have it, and it goes only from a component that leaves the stack. -/
structure Admissible [DecidableEq C] (A : Tui C → Option C → Prop) : Prop where
  stacked : ∀ s c, s.isOverlay c = true → A s (some c)
  transfer : ∀ s s' p, (∀ c, p = some c → s.isOverlay c = true → s'.isOverlay c = true) →
    (∀ c, s'.wasShown c = true → s.wasShown c = true ∨ s'.isOverlay c = true) →
    A s p → A s' p

variable [DecidableEq C] {A : Tui C → Option C → Prop}

theorem Admissible.congr (hA : Admissible A) (hentries : s'.entries = s.entries)
    (h : A s p) : A s' p := by
  refine hA.transfer s s' p (fun c _ => ?_) (fun c hshown => .inl ?_) h
  · rw [Tui.isOverlay, Tui.isOverlay, Tui.overlayStack, Tui.overlayStack, hentries]
    exact id
  · rwa [Tui.wasShown, hentries] at hshown

/-- The entries and the restore state keep to the property. -/
structure Holds (A : Tui C → Option C → Prop) (s : Tui C) : Prop where
  numbered : s.Numbered
  known : ∀ overlay, s.overlayFocusRestore.overlay? = some overlay → overlay < s.entries.length
  preFocus : ∀ e ∈ s.overlayStack, A s e.preFocus
  target : ∀ overlay blockedBy t,
    s.overlayFocusRestore = .blocked overlay blockedBy (.focusTarget t) →
      (∃ e ∈ s.overlayStack, e.id = overlay) → A s t

/-- So does the focus. -/
structure Keeps (A : Tui C → Option C → Prop) (s : Tui C) : Prop extends Holds A s where
  focused : A s s.focusedComponent

namespace Holds

theorem goes (hA : Admissible A) (h : Holds A s) (hp : A s p) {next : Option C}
    {restore : FocusRestore C} (hgoes : s.Goes p next restore) :
    A s next ∧ ∀ overlay blockedBy t, restore = .blocked overlay blockedBy (.focusTarget t) →
      (∃ e ∈ s.overlayStack, e.id = overlay) → A s t := by
  cases hgoes with
  | asked hrestore =>
    refine ⟨hp, fun overlay blockedBy t heq => ?_⟩
    rcases hrestore with rfl | rfl | ⟨_, _, _, _, rfl⟩
    · exact h.target overlay blockedBy t heq
    · cases heq
    · cases heq
  | restored hrestore =>
    obtain ⟨-, hvisible⟩ := Tui.getVisible_eq_blocked.mp hrestore
    obtain ⟨e, he, hentry, -⟩ := h.numbered.restored hvisible
    refine ⟨?_, h.target⟩
    rw [hentry]
    exact hA.stacked s _ (Tui.isOverlay_iff.mpr ⟨e, he, rfl⟩)
  | released hrestore =>
    obtain ⟨hraw, hvisible⟩ := Tui.getVisible_eq_blocked.mp hrestore
    obtain ⟨e, he, hid, -⟩ := Tui.isVisibleInStack_iff.mp hvisible
    refine ⟨h.target _ _ _ hraw ⟨e, he, hid⟩, fun overlay blockedBy t heq => ?_⟩
    cases heq

omit [DecidableEq C] in
theorem known_goes (h : Holds A s) {next : Option C} {restore : FocusRestore C}
    (hgoes : s.Goes p next restore) (overlay : Nat) (heq : restore.overlay? = some overlay) :
    overlay < s.entries.length := by
  cases hgoes with
  | asked hrestore =>
    rcases hrestore with rfl | rfl | ⟨_, _, hoverlay, _, rfl⟩
    · exact h.known overlay heq
    · cases heq
    · cases heq
      exact h.known _ hoverlay
  | restored => exact h.known overlay heq
  | released => cases heq

/-- **Moving the focus to an admissible place** keeps everything admissible. -/
theorem setFocusInternal (hA : Admissible A) (h : Holds A s) (hp : A s p) :
    Keeps A (s.setFocusInternal p policy) := by
  obtain ⟨hnext, htarget⟩ := h.goes hA hp (s.goes_nextFocus p policy)
  refine ⟨⟨h.numbered, fun overlay heq => ?_, fun e he => ?_,
    fun overlay blockedBy t heq hstack => ?_⟩, ?_⟩
  · simp only [Tui.setFocusInternal, Tui.place] at heq
    split at heq
    case h_1 f hf =>
      cases heq
      have hmem := mem_of_find?_eq_some hf
      exact h.numbered.id_lt (Tui.mem_overlayStack.mp hmem).1
    case h_2 => exact h.known_goes (s.goes_nextFocus p policy) overlay heq
  · exact hA.congr (s := s) rfl (h.preFocus e he)
  · refine hA.congr (s := s) rfl (htarget overlay blockedBy t ?_ hstack)
    simp only [Tui.setFocusInternal, Tui.place] at heq
    split at heq
    · cases heq
    · exact heq
  · exact hA.congr (s := s) rfl hnext

theorem setFocus (hA : Admissible A) (h : Holds A s) (hp : A s p) : Keeps A (s.setFocus p) :=
  h.setFocusInternal hA hp

end Holds

end ReflectivePi.Overlays
