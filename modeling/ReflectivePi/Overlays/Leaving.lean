import ReflectivePi.Overlays.Operations

/-!
# Overlays — Leaving

Where the focus goes when the visible capturing overlay that has it is removed
or hidden, and who gets a key. The fallback of an overlay that leaves is its
predecessor, whatever that is; a key looks once for a predecessor of a focused
overlay that is not visible, and once at the target of a release.
-/

namespace ReflectivePi.Overlays

variable {C : Type} [DecidableEq C] {s s' t : Tui C} {e o : Entry C} {c : C}
  {p : Option C} {policy : FocusRestorePolicy}

namespace Tui

/-- The component has overlays in the stack, and all of them are hidden. -/
def isHiddenOverlay (s : Tui C) (c : C) : Bool :=
  s.isOverlay c && s.overlayStack.all fun o => o.component ≠ c || o.hidden

/-- The nearest component from a predecessor downwards that is neither a hidden
nor a removed overlay. -/
inductive Nearest (s : Tui C) : Option C → Option C → Prop where
  | nothing : Nearest s none none
  | here {c : C} (hhidden : s.isHiddenOverlay c = false) (hgone : s.isGone c = false) :
      Nearest s (some c) (some c)
  | further {e : Entry C} {q : Option C} (he : e ∈ s.entries)
      (hover : s.isHiddenOverlay e.component = true ∨ s.isGone e.component = true)
      (h : Nearest s e.preFocus q) : Nearest s (some e.component) q

/-- The focus is where it belongs after the overlay has left: on the visible
capturing overlay with the highest focus order, or, where there is none, on the
nearest component below. -/
def LeftBy (s : Tui C) (e : Entry C) : Prop :=
  (∃ top ∈ s.overlayStack, top.captures = true ∧
    (∀ o ∈ s.overlayStack, o.captures = true → o.focusOrder ≤ top.focusOrder) ∧
    s.focusedComponent = some top.component) ∨
  ((∀ o ∈ s.overlayStack, o.captures = false) ∧ Nearest s e.preFocus s.focusedComponent)

/-- Apart from the entry, every overlay of the predecessor is hidden or removed. -/
def fallsOnHidden (s : Tui C) (e : Entry C) : Bool :=
  match e.preFocus with
  | none => false
  | some c =>
    s.wasShown c && s.overlayStack.all fun o => o.component ≠ c || o.id = e.id || o.hidden

/-- A restore that the component of the entry blocks takes the focus instead of
the predecessor. -/
def isIntercepted (s : Tui C) (e : Entry C) : Bool :=
  match s.getVisibleOverlayFocusRestore with
  | .blocked overlay blockedBy resume =>
    overlay ≠ e.id && e.component = blockedBy && match e.preFocus with
      | none => true
      | some next =>
        !s.isOverlay next && (resume ≠ .restoreOverlay || !s.isComponentMounted blockedBy)
  | _ => false

/-- If the focused overlay leaves and no other one captures, its predecessor can
take the focus. -/
def canLeave (s : Tui C) (e : Entry C) : Bool :=
  s.focusedComponent ≠ some e.component || !e.captures
    || (s.overlayStack.any fun o => o.id ≠ e.id && o.captures)
    || (!s.fallsOnHidden e && !s.isIntercepted e)

end Tui

/-! ## Without the overlay -/

/-- The same overlay but for its predecessor and its place in the order. -/
structure Entry.Like (o' o : Entry C) : Prop where
  id : o'.id = o.id
  component : o'.component = o.component
  hidden : o'.hidden = o.hidden
  visible : o'.isOverlayVisible = o.isOverlayVisible
  captures : o'.captures = o.captures

/-- A state in which the entry is hidden or out of the stack, and nothing else
has changed. -/
structure Without (s : Tui C) (e : Entry C) (t : Tui C) : Prop where
  focused : t.focusedComponent = s.focusedComponent
  mounted : t.mounted = s.mounted
  shown : ∀ c, t.wasShown c = s.wasShown c
  restore : ∀ overlay blockedBy resume, t.overlayFocusRestore = .blocked overlay blockedBy resume →
    s.overlayFocusRestore = .blocked overlay blockedBy resume ∧ overlay ≠ e.id
  others : ∀ o ∈ s.overlayStack, o.id ≠ e.id → ∃ o' ∈ t.overlayStack, o'.Like o
  left : ∀ o' ∈ t.overlayStack, o'.hidden = false → ∃ o ∈ s.overlayStack, o.id ≠ e.id ∧ o'.Like o

omit [DecidableEq C] in
theorem hidden_of_captures (h : e.captures = true) : e.hidden = false := by
  simp only [Entry.captures, Entry.isOverlayVisible, Bool.and_eq_true, Bool.not_eq_true'] at h
  exact h.2.1

omit [DecidableEq C] in
theorem hidden_of_visible (h : e.isOverlayVisible = true) : e.hidden = false := by
  simp only [Entry.isOverlayVisible, Bool.and_eq_true, Bool.not_eq_true'] at h
  exact h.1

namespace Tui

theorem nextFocus_fst (h : ∀ overlay blockedBy resume,
    s.getVisibleOverlayFocusRestore = .blocked overlay blockedBy resume →
      s.focusedComponent = some blockedBy → ∃ next, p = some next ∧ (s.isOverlay next = true ∨
          resume = .restoreOverlay ∧ s.isComponentMounted blockedBy = true)) :
    (s.nextFocus p policy).1 = p := by
  have hblock : ∀ overlay next, (s.blockRestore overlay next).1 = some next := by
    intro overlay next
    unfold blockRestore
    split
    · split <;> rfl
    · rfl
  cases p with
  | none =>
    simp only [nextFocus]
    split
    case h_1 overlay blockedBy resume hrestore =>
      split
      case isTrue hfocus =>
        obtain ⟨_, hsome, -⟩ := h overlay blockedBy resume hrestore hfocus
        cases hsome
      case isFalse => rfl
    case h_2 => rfl
  | some next =>
    simp only [nextFocus]
    split
    case isTrue => rfl
    case isFalse hover =>
      split
      case h_1 => rfl
      case h_2 => exact hblock _ next
      case h_3 overlay blockedBy resume hrestore =>
        split
        case isFalse => exact hblock _ next
        case isTrue hfocus =>
          obtain ⟨_, hsome, hstay⟩ := h overlay blockedBy resume hrestore hfocus
          cases hsome
          rcases hstay with hyes | ⟨rfl, hmounted⟩
          · exact absurd hyes hover
          · simp [hmounted]

theorem setFocus_top (h : s.getTopmostVisibleOverlay = some e) :
    (s.setFocus (s.fallback o)).focusedComponent = some e.component := by
  have htop := topmost_eq_some h
  have hover : s.isOverlay e.component = true := isOverlay_iff.mpr ⟨e, htop.1, rfl⟩
  have hfallback : s.fallback o = some e.component := by rw [fallback, h]
  rw [hfallback, setFocus, setFocusInternal_focused, nextFocus_of_isOverlay hover]

end Tui

namespace Without

/-- Something of the component is left and not hidden, or it never was an
overlay. -/
theorem predecessor (h : Without s e t) (hpre : e.preFocus = some c)
    (hfalls : s.fallsOnHidden e = false) :
    s.wasShown c = false ∨ ∃ o ∈ t.overlayStack, o.component = c ∧ o.hidden = false := by
  rw [Tui.fallsOnHidden, hpre] at hfalls
  simp only [Bool.and_eq_false_iff, List.all_eq_false] at hfalls
  refine hfalls.imp id ?_
  rintro ⟨o, ho, hno⟩
  simp only [Bool.or_eq_true, decide_eq_true_eq, not_or, Bool.not_eq_true, not_not] at hno
  obtain ⟨⟨hcomp, hid⟩, hhidden⟩ := hno
  obtain ⟨o', ho', hlike⟩ := h.others o ho hid
  exact ⟨o', ho', hlike.component.trans hcomp, hlike.hidden.trans hhidden⟩

theorem stays (h : Without s e t) (hpre : e.preFocus = some c)
    (hfalls : s.fallsOnHidden e = false) : t.isHiddenOverlay c = false ∧ t.isGone c = false := by
  have hcases := h.predecessor hpre hfalls
  rw [← h.shown] at hcases
  refine ⟨?_, Tui.isGone_eq_false.mpr fun hshown => ?_⟩
  · cases hhidden : t.isHiddenOverlay c with
    | false => rfl
    | true =>
      rw [Tui.isHiddenOverlay, Bool.and_eq_true, List.all_eq_true] at hhidden
      obtain ⟨hover, hall⟩ := hhidden
      rcases hcases with hnever | ⟨o, ho, hcomp, hyes⟩
      · rw [Tui.wasShown_of_isOverlay hover] at hnever
        cases hnever
      · have := hall o ho
        simp [hcomp, hyes] at this
  · rcases hcases with hnever | ⟨o, ho, hcomp, -⟩
    · rw [hnever] at hshown
      cases hshown
    · exact Tui.isOverlay_iff.mpr ⟨o, ho, hcomp⟩

theorem not_intercepted (h : Without s e t) (hfocus : s.focusedComponent = some e.component)
    (hfalls : s.fallsOnHidden e = false) (hintercepted : s.isIntercepted e = false) :
    (t.nextFocus e.preFocus policy).1 = e.preFocus := by
  refine Tui.nextFocus_fst fun overlay blockedBy resume hrestore hblocked => ?_
  obtain ⟨hraw, hvisible⟩ := Tui.getVisible_eq_blocked.mp hrestore
  obtain ⟨hraw, hne⟩ := h.restore _ _ _ hraw
  obtain ⟨o', ho', hid, hvis⟩ := Tui.isVisibleInStack_iff.mp hvisible
  obtain ⟨o, ho, -, hlike⟩ := h.left o' ho' (hidden_of_visible hvis)
  have hrestore : s.getVisibleOverlayFocusRestore = .blocked overlay blockedBy resume :=
    Tui.getVisible_eq_blocked.mpr ⟨hraw, Tui.isVisibleInStack_iff.mpr
      ⟨o, ho, hlike.id.symm.trans hid, hlike.visible.symm.trans hvis⟩⟩
  rw [h.focused, hfocus] at hblocked
  have hcomp : e.component = blockedBy := Option.some.inj hblocked
  rw [Tui.isIntercepted, hrestore] at hintercepted
  cases hpre : e.preFocus with
  | none => simp [hpre, hne, hcomp] at hintercepted
  | some next =>
    refine ⟨next, rfl, ?_⟩
    simp only [hpre, hne, hcomp, ne_eq, not_false_eq_true, decide_true, Bool.true_and,
      Bool.and_eq_false_iff, Bool.not_eq_false', Bool.or_eq_false_iff,
      decide_eq_false_iff_not, not_not] at hintercepted
    rcases hintercepted with hover | ⟨hresume, hmounted⟩
    · left
      rcases h.predecessor hpre hfalls with hnever | ⟨o, ho, hcomp, -⟩
      · rw [Tui.wasShown_of_isOverlay hover] at hnever
        cases hnever
      · exact Tui.isOverlay_iff.mpr ⟨o, ho, hcomp⟩
    · right
      rw [Tui.isComponentMounted, h.mounted]
      exact ⟨hresume, hmounted⟩

/-- **The focus leaves well** under the condition. -/
theorem leftBy (h : Without s e t) (hfocus : s.focusedComponent = some e.component)
    (hcaptures : e.captures = true) (hcan : s.canLeave e = true) :
    (t.setFocus (t.fallback e)).LeftBy e := by
  cases htop : t.getTopmostVisibleOverlay with
  | some top =>
    obtain ⟨hmem, hyes, hmax⟩ := Tui.topmost_eq_some htop
    exact .inl ⟨top, hmem, hyes, hmax, Tui.setFocus_top htop⟩
  | none =>
    have hnone := Tui.topmost_eq_none htop
    have hothers : (s.overlayStack.any fun o => o.id ≠ e.id && o.captures) = false := by
      rw [List.any_eq_false]
      intro o ho hyes
      simp only [Bool.and_eq_true, decide_eq_true_eq] at hyes
      obtain ⟨o', ho', hlike⟩ := h.others o ho hyes.1
      have := hnone o' ho'
      rw [hlike.captures, hyes.2] at this
      cases this
    have hboth : s.fallsOnHidden e = false ∧ s.isIntercepted e = false := by
      rw [Tui.canLeave, hothers] at hcan
      simpa [hfocus, hcaptures] using hcan
    have hfallback : t.fallback e = e.preFocus := by rw [Tui.fallback, htop]
    have hnext : (t.setFocus (t.fallback e)).focusedComponent = e.preFocus := by
      rw [hfallback, Tui.setFocus, Tui.setFocusInternal_focused]
      exact h.not_intercepted hfocus hboth.1 hboth.2
    refine .inr ⟨hnone, ?_⟩
    rw [hnext]
    cases hpre : e.preFocus with
    | none => exact .nothing
    | some c =>
      obtain ⟨hhidden, hgone⟩ := h.stays hpre hboth.1
      exact .here hhidden hgone

end Without

end ReflectivePi.Overlays
