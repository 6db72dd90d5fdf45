import ReflectivePi.Overlays.Leaving

/-!
# Overlays — Keys

Who gets a key. A focused overlay that is not visible gives the focus to the
topmost one, or to its predecessor without a second look; a focus outside of the
stack may go back to the overlay of the restore state, or to the target of a
pending release.
-/

namespace ReflectivePi.Overlays

variable {C : Type} [DecidableEq C] {s s' : Tui C} {e o : Entry C} {c : C}
  {p : Option C} {policy : FocusRestorePolicy}

namespace Tui

/-- The focused overlay is visible, or there is a topmost one to go to, or its
predecessor can take a key. -/
def canRedirect (s : Tui C) : Bool :=
  match s.focusedOverlay with
  | none => true
  | some overlay =>
    overlay.isOverlayVisible || s.getTopmostVisibleOverlay.isSome ||
      overlay.preFocus.all fun c => !s.isDead c

/-- The target of a pending release can take a key, unless the component that
blocks the restore has the focus itself. -/
def canRelease (s : Tui C) : Bool :=
  match s.getVisibleOverlayFocusRestore with
  | .blocked _ blockedBy (.focusTarget (some target)) =>
    (s.focusedComponent = some blockedBy && !s.isOverlay blockedBy) || !s.isDead target
  | _ => true

/-- No overlay that is hidden, not visible or removed has the focus. -/
def Alive (s : Tui C) (focus : Option C) : Prop := ∀ c, focus = some c → s.isDead c = false

theorem not_dead_of_visible (he : e ∈ s.overlayStack) (hvisible : e.isOverlayVisible = true) :
    s.isDead e.component = false :=
  isDead_eq_false.mpr fun _ => ⟨e, he, rfl, hvisible⟩

theorem not_dead_of_not_gone (hgone : s.isGone c = false) (hover : s.isOverlay c = false) :
    s.isDead c = false := by
  refine isDead_eq_false.mpr fun hshown => ?_
  rw [isGone_eq_false.mp hgone hshown] at hover
  cases hover

theorem focusedOverlay_eq_none (h : s.focusedOverlay = none) (hc : s.focusedComponent = some c) :
    s.isOverlay c = false := by
  rw [focusedOverlay, List.find?_eq_none] at h
  cases hover : s.isOverlay c with
  | false => rfl
  | true =>
    obtain ⟨e, he, rfl⟩ := isOverlay_iff.mp hover
    exact absurd (by simp [hc]) (h e he)

theorem focusedOverlay_eq_some (h : s.focusedOverlay = some e) :
    e ∈ s.overlayStack ∧ s.focusedComponent = some e.component := by
  refine ⟨List.mem_of_find?_eq_some h, ?_⟩
  have := List.find?_some h
  exact (of_decide_eq_true this).symm

theorem restoreFocus_of_isOverlay (hc : s.focusedComponent = some c)
    (hover : s.isOverlay c = true) : s.restoreFocus = s := by
  obtain ⟨e, he, rfl⟩ := isOverlay_iff.mp hover
  refine if_pos (List.any_eq_true.mpr ⟨e, he, ?_⟩)
  simp [hc]

theorem setFocus_isOverlay (h : s.isOverlay c = true) :
    (s.setFocus (some c)).focusedComponent = some c := by
  rw [setFocus, setFocusInternal_focused, nextFocus_of_isOverlay h]

theorem alive_restored (hs : s.Numbered) {i : Nat} (hvisible : s.isVisibleInStack i = true) :
    s.Alive (s.setFocus ((s.entry? i).map Entry.component)).focusedComponent := by
  obtain ⟨e, he, hentry, hvis⟩ := hs.restored hvisible
  rw [hentry, Option.map_some, setFocus_isOverlay (isOverlay_iff.mpr ⟨e, he, rfl⟩)]
  intro c hc
  cases hc
  exact not_dead_of_visible he hvis

theorem alive_restoreFocus (hs : s.Numbered) (hfocus : s.Alive s.focusedComponent)
    (htarget : ∀ overlay blockedBy target,
      s.getVisibleOverlayFocusRestore = .blocked overlay blockedBy (.focusTarget target) →
        s.focusedComponent ≠ some blockedBy → s.Alive target) :
    s.Alive s.restoreFocus.focusedComponent := by
  unfold restoreFocus
  split
  case isTrue => exact hfocus
  case isFalse =>
    split
    case h_1 => exact hfocus
    case h_2 overlay hrestore =>
      exact alive_restored hs (getVisible_eq_eligible.mp hrestore).2
    case h_3 overlay blockedBy resume hrestore =>
      split
      case isTrue => exact hfocus
      case isFalse hblocked =>
        split
        case h_1 => exact alive_restored hs (getVisible_eq_blocked.mp hrestore).2
        case h_2 target =>
          have hnext : (s.clearOverlayFocusRestore.nextFocus target .clear).1 = target := by
            refine nextFocus_fst fun overlay blockedBy resume hblocked => ?_
            cases (getVisible_eq_blocked.mp hblocked).1
          rw [setFocus, setFocusInternal_focused, hnext]
          exact htarget _ _ _ hrestore hblocked

theorem alive_of_canRelease (h : s.canRelease = true) {overlay : Nat} {blockedBy : C}
    {target : Option C}
    (hrestore : s.getVisibleOverlayFocusRestore = .blocked overlay blockedBy (.focusTarget target))
    (hfocus : s.focusedComponent = some blockedBy → s.isOverlay blockedBy = true) :
    s.Alive target := by
  rintro c rfl
  rw [canRelease, hrestore] at h
  simp only [Bool.or_eq_true, Bool.and_eq_true, decide_eq_true_eq, Bool.not_eq_true'] at h
  rcases h with ⟨heq, hnot⟩ | hdead
  · rw [hfocus heq] at hnot
    cases hnot
  · exact hdead

omit [DecidableEq C] in
theorem Goes.pending {next : Option C} {restore : FocusRestore C} (h : Goes s p next restore)
    {overlay : Nat} {blockedBy : C} {target : Option C}
    (hrestore : restore = .blocked overlay blockedBy (.focusTarget target)) :
    s.overlayFocusRestore = .blocked overlay blockedBy (.focusTarget target) := by
  cases h with
  | asked hsame =>
    rcases hsame with rfl | rfl | ⟨_, _, _, _, rfl⟩
    · exact hrestore
    · cases hrestore
    · cases hrestore
  | restored => exact hrestore
  | released => cases hrestore

/-- **A key never goes to an overlay that is hidden, not visible or removed**,
under the conditions. -/
theorem alive_handleTerminalInput (hs : s.Numbered)
    (hgone : ∀ c, s.focusedComponent = some c → s.isGone c = false)
    (hredirect : s.canRedirect = true) (hrelease : s.canRelease = true) :
    s.Alive s.handleTerminalInput.focusedComponent := by
  unfold canRedirect at hredirect
  unfold handleTerminalInput redirectFocus
  cases hfocused : s.focusedOverlay with
  | none =>
    dsimp only
    refine alive_restoreFocus hs (fun c hc => ?_) fun overlay blockedBy target hr hne => ?_
    · exact not_dead_of_not_gone (hgone c hc) (focusedOverlay_eq_none hfocused hc)
    · exact alive_of_canRelease hrelease hr fun heq => absurd heq hne
  | some f =>
    obtain ⟨hf, hfocus⟩ := focusedOverlay_eq_some hfocused
    have hover : s.isOverlay f.component = true := isOverlay_iff.mpr ⟨f, hf, rfl⟩
    rw [hfocused] at hredirect
    dsimp only at hredirect ⊢
    by_cases hvisible : f.isOverlayVisible = true
    · rw [if_pos hvisible, restoreFocus_of_isOverlay hfocus hover, hfocus]
      intro c hc
      cases hc
      exact not_dead_of_visible hf hvisible
    rw [if_neg hvisible]
    cases htop : s.getTopmostVisibleOverlay with
    | some top =>
      obtain ⟨hmem, hcaptures, -⟩ := topmost_eq_some htop
      have htopover : s.isOverlay top.component = true := isOverlay_iff.mpr ⟨top, hmem, rfl⟩
      have htopfocus := setFocus_isOverlay htopover
      dsimp only
      rw [restoreFocus_of_isOverlay htopfocus htopover, htopfocus]
      intro c hc
      cases hc
      simp only [Entry.captures, Bool.and_eq_true] at hcaptures
      exact not_dead_of_visible hmem hcaptures.2
    | none =>
      have hpredecessor : s.Alive f.preFocus := by
        intro c hc
        simpa [hvisible, htop, hc] using hredirect
      have hreleased : ∀ overlay blockedBy target,
          s.getVisibleOverlayFocusRestore = .blocked overlay blockedBy (.focusTarget target) →
            s.Alive target := by
        intro overlay blockedBy target hr
        refine alive_of_canRelease hrelease hr fun heq => ?_
        rw [hfocus] at heq
        cases heq
        exact hover
      -- the three places the focus can go to from here
      have hgoes := s.goes_nextFocus f.preFocus .preserve
      have hnext : s.Alive (s.nextFocus f.preFocus .preserve).1 := by
        generalize (s.nextFocus f.preFocus .preserve).1 = next at hgoes
        generalize (s.nextFocus f.preFocus .preserve).2 = restore at hgoes
        cases hgoes with
        | asked => exact hpredecessor
        | restored hr =>
          obtain ⟨e, he, hentry, hvis⟩ := hs.restored (getVisible_eq_blocked.mp hr).2
          rw [hentry]
          intro c hc
          cases hc
          exact not_dead_of_visible he hvis
        | released hr => exact hreleased _ _ _ hr
      refine alive_restoreFocus (s := s.setFocusInternal f.preFocus .preserve) hs hnext
        fun overlay blockedBy target hr _ => ?_
      obtain ⟨hraw, hstack⟩ := getVisible_eq_blocked.mp hr
      have hrestore : (s.nextFocus f.preFocus .preserve).2
          = .blocked overlay blockedBy (.focusTarget target) := by
        simp only [setFocusInternal, place] at hraw
        split at hraw
        · cases hraw
        · exact hraw
      refine hreleased overlay blockedBy target (getVisible_eq_blocked.mpr ⟨?_, hstack⟩)
      exact hgoes.pending hrestore

end Tui

end ReflectivePi.Overlays
