import ReflectivePi.Overlays.Runs

/-!
# Overlays — Proper

Every run whose steps meet the condition gives no key to an overlay that is
hidden, not visible or removed, hands the focus of a visible capturing overlay
that leaves to the right component, and ends with the focus where it was before
the first overlay. Three short runs without the condition do not.
-/

namespace ReflectivePi.Overlays

open Option

variable {C : Type} [DecidableEq C] {s s' : Tui C} {e o : Entry C} {c : C}
  {p : Option C} {label : Label C}

omit [DecidableEq C] in
theorem Entry.Like.of_eq (hid : o.id = e.id) (hcomp : o.component = e.component)
    (hhidden : o.hidden = e.hidden) (hvisible : o.visible = e.visible)
    (hcapturing : o.nonCapturing = e.nonCapturing) : o.Like e := by
  have hvis : o.isOverlayVisible = e.isOverlayVisible := by
    rw [Entry.isOverlayVisible, Entry.isOverlayVisible, hhidden, hvisible]
  refine ⟨hid, hcomp, hhidden, hvis, ?_⟩
  rw [Entry.captures, Entry.captures, hcapturing, hvis]

theorem without_splice (s : Tui C) (e : Entry C) : Without s e (s.splice e) := by
  have hlike : ∀ o : Entry C, o.id ≠ e.id → (Tui.spliced e o).Like o := by
    intro o hid
    unfold Tui.spliced
    rw [if_neg hid]
    split <;> exact .of_eq rfl rfl rfl rfl rfl
  refine ⟨Tui.splice_focused, Tui.splice_mounted, fun c => ?_, ?_, fun o ho hid => ?_,
    fun o' ho' _ => ?_⟩
  · exact wasShown_map (Tui.renews_spliced e) (s.splice_entries e)
  · intro overlay blockedBy resume hrestore
    rw [Tui.splice_restore] at hrestore
    split at hrestore
    · cases hrestore
    case isFalse hother =>
      refine ⟨hrestore, ?_⟩
      rintro rfl
      exact hother (by rw [hrestore]; rfl)
  · exact ⟨_, Tui.mem_stack_splice.mpr ⟨o, ho, hid, rfl⟩, hlike o hid⟩
  · obtain ⟨o, ho, hid, rfl⟩ := Tui.mem_stack_splice.mp ho'
    exact ⟨o, ho, hid, hlike o hid⟩

theorem without_hidden (s : Tui C) (e : Entry C) :
    Without s e ((s.update e.id fun overlay => { overlay with hidden := true })
      |>.clearOverlayFocusRestoreFor e.id) := by
  have hg : Entry.InPlace fun overlay : Entry C => { overlay with hidden := true } :=
    fun _ => ⟨rfl, rfl, rfl, rfl⟩
  have hentries := Tui.clearFor_entries (s.update e.id fun overlay =>
    { overlay with hidden := true }) e.id
  refine ⟨?_, ?_, fun c => ?_, ?_, fun o ho hid => ?_, fun o' ho' hshown => ?_⟩
  · rw [Tui.clearFor_focused]
    rfl
  · unfold Tui.clearOverlayFocusRestoreFor
    split <;> rfl
  · exact wasShown_map (hg.update e.id).renews hentries
  · intro overlay blockedBy resume hrestore
    unfold Tui.clearOverlayFocusRestoreFor at hrestore
    split at hrestore
    · cases hrestore
    case isFalse hother =>
      refine ⟨hrestore, ?_⟩
      rintro rfl
      exact hother (by rw [hrestore]; rfl)
  · refine ⟨o, (mem_stack_map (hg.update e.id) hentries).mpr ⟨o, ho, if_neg hid⟩, ?_⟩
    exact .of_eq rfl rfl rfl rfl rfl
  · obtain ⟨o, ho, rfl⟩ := (mem_stack_map (hg.update e.id) hentries).mp ho'
    by_cases hid : o.id = e.id
    · rw [if_pos hid] at hshown
      cases hshown
    · rw [if_neg hid]
      exact ⟨o, ho, hid, .of_eq rfl rfl rfl rfl rfl⟩

theorem leftBy_removeOverlay (hcaptures : e.captures = true)
    (hfocus : s.focusedComponent = some e.component) (hcan : s.canLeave e = true) :
    (s.removeOverlay e).LeftBy e := by
  unfold Tui.removeOverlay
  dsimp only
  rw [Tui.splice_focused, if_pos hfocus]
  exact (without_splice s e).leftBy hfocus hcaptures hcan

theorem leftBy_setHidden (hcaptures : e.captures = true)
    (hfocus : s.focusedComponent = some e.component) (hcan : s.canLeave e = true) :
    (s.setHidden e true).LeftBy e := by
  have hshown : e.hidden ≠ true := by
    rw [hidden_of_captures hcaptures]
    simp
  unfold Tui.setHidden
  rw [if_neg hshown]
  dsimp only
  rw [if_pos rfl, Tui.clearFor_focused]
  rw [if_pos (show (s.update e.id _).focusedComponent = _ from hfocus)]
  exact (without_hidden s e).leftBy hfocus hcaptures hcan

/-- The overlay of the stack that a step removes or hides. -/
def leaver (s : Tui C) : Label C → Option (Entry C)
  | .hide i => (s.entry? i).filter fun e => !e.removed
  | .setHidden i true => (s.entry? i).filter fun e => !e.removed
  | .hideOverlay => s.overlayStack.getLast?
  | _ => none

/-- **What a step may do to keys and focus.** -/
structure StepProper (s : Tui C) (label : Label C) (s' : Tui C) : Prop where
  keys : ∀ handles c, label = .key handles → receiver s handles = some c → s.isDead c = false
  leaving : ∀ e, leaver s label = some e → e.captures = true →
    s.focusedComponent = some e.component → s'.LeftBy e

/-- The steps that leave the focus to the interface. -/
def handsOff (s : Tui C) (label : Label C) : Prop :=
  meets s label = true ∧ label.refocuses = false

/-- **What holds of a state**: the next step is proper, and whatever is shown
from here on, once no overlay is left the focus is where it is now. -/
structure Proper (s : Tui C) : Prop where
  next : ∀ label s', meets s label = true → step s label = some s' → StepProper s label s'
  back : ∀ s', Run (· = s) step handsOff s' → s.overlayStack = [] → s'.overlayStack = [] →
    s'.focusedComponent = s.focusedComponent

/-- Not the component of an overlay that is gone. -/
def NotGone (s : Tui C) (p : Option C) : Prop := ∀ c, p = some c → s.isGone c = false

/-- The given focus, or an overlay of the stack. -/
def Back (focus : Option C) (s : Tui C) (p : Option C) : Prop :=
  p = focus ∨ ∃ c, p = some c ∧ s.isOverlay c = true

theorem admissible_notGone : Admissible (NotGone (C := C)) where
  stacked := by
    intro s c hover c' hc
    cases hc
    exact Tui.isGone_eq_false.mpr fun _ => hover
  transfer := by
    intro s s' p hstack hshown h c hc
    refine Tui.isGone_eq_false.mpr fun hwas => ?_
    rcases hshown c hwas with hbefore | hnow
    · exact hstack c hc (Tui.isGone_eq_false.mp (h c hc) hbefore)
    · exact hnow

theorem admissible_back (focus : Option C) : Admissible (Back focus) where
  stacked := fun s c hover => .inr ⟨c, rfl, hover⟩
  transfer := by
    rintro s s' p hstack - (rfl | ⟨c, rfl, hover⟩)
    · exact .inl rfl
    · exact .inr ⟨c, rfl, hstack c rfl hover⟩

/-! ## Every run under the condition -/

/-- Nothing has been shown yet. -/
def Fresh (s : Tui C) : Prop := s.entries = [] ∧ s.overlayFocusRestore = .inactive

theorem keeps_fresh (h : Fresh s) : Keeps NotGone s := by
  have hstack : s.overlayStack = [] := by rw [Tui.overlayStack, h.1]; rfl
  refine ⟨⟨?_, fun overlay heq => ?_, fun e he => ?_, fun overlay b t heq _ => ?_⟩, fun c _ => ?_⟩
  · rw [Tui.Numbered, h.1]
    rfl
  · rw [h.2] at heq
    cases heq
  · rw [hstack] at he
    cases he
  · rw [h.2] at heq
    cases heq
  · rw [Tui.isGone, Tui.wasShown, h.1]
    rfl

theorem keeps_notGone_step (h : Keeps NotGone s) (hok : meets s label = true)
    (hstep : step s label = some s') : Keeps NotGone s' := by
  refine h.step admissible_notGone hok ?_ ?_ hstep
  · rintro c rfl c' hc
    cases hc
    simpa [meets] using hok
  · rintro i options rfl
    obtain ⟨e, hentry, -⟩ := Option.map_eq_some_iff.mp hstep
    simp only [meets, hentry, all_some, Bool.and_eq_true] at hok
    refine ⟨?_, ?_⟩
    · rintro q rfl c rfl
      simpa using hok.1
    · intro e' hentry' hremoved hnone hfocus c hc
      cases hentry.symm.trans hentry'
      simpa [hremoved, hnone, hfocus, hc] using hok.2

theorem keeps_back_step {focus : Option C} (h : Keeps (Back focus) s) (hok : handsOff s label)
    (hstep : step s label = some s') : Keeps (Back focus) s' := by
  refine h.step (admissible_back focus) hok.1 ?_ ?_ hstep
  · rintro c rfl
    cases hok.2
  · rintro i options rfl
    cases hok.2

theorem stepProper (h : Keeps NotGone s) (hok : meets s label = true)
    (hstep : step s label = some s') : StepProper s label s' where
  keys := by
    rintro handles c rfl hc
    simp only [meets, Bool.and_eq_true] at hok
    exact Tui.alive_handleTerminalInput h.numbered h.focused hok.1 hok.2 c
      (eq_some_of_filter_eq_some hc)
  leaving := by
    intro e hleaver hcaptures hfocus
    cases label with
    | hide i =>
      obtain ⟨hentry, hstays⟩ := Option.filter_eq_some_iff.mp hleaver
      rw [Bool.not_eq_true'] at hstays
      rw [step, hentry, map_some, Option.some.injEq] at hstep
      simp only [meets, hentry, all_some, hstays, Bool.false_or, Bool.and_eq_true] at hok
      rw [← hstep, Tui.hide, hstays, if_neg (by simp)]
      exact leftBy_removeOverlay hcaptures hfocus hok.2
    | setHidden i hidden =>
      cases hidden with
      | false => cases hleaver
      | true =>
        obtain ⟨hentry, hstays⟩ := Option.filter_eq_some_iff.mp hleaver
        rw [Bool.not_eq_true'] at hstays
        rw [step, hentry, map_some, Option.some.injEq] at hstep
        simp only [meets, hentry, all_some, hidden_of_captures hcaptures, hstays,
          Bool.false_eq_true, decide_false, Bool.false_or, if_true, Bool.and_eq_true] at hok
        rw [← hstep]
        exact leftBy_setHidden hcaptures hfocus hok.2
    | hideOverlay =>
      have hlast : s.overlayStack.getLast? = some e := hleaver
      rw [step, Option.some.injEq] at hstep
      simp only [meets, hlast, all_some, Bool.and_eq_true] at hok
      rw [← hstep, Tui.hideOverlay, hlast]
      exact leftBy_removeOverlay hcaptures hfocus hok.2
    | _ => cases hleaver

/-- **Under the condition, the focus is where it belongs in every run.** -/
theorem focus_proper (h : Run Fresh step (fun s label => meets s label = true) s) :
    Proper s := by
  have hkeeps : Keeps NotGone s := h.invariant (p := Keeps NotGone) (fun _ => keeps_fresh)
      fun _ _ _ => keeps_notGone_step
  refine ⟨fun label s' hok hstep => stepProper hkeeps hok hstep, fun s' hrun hempty hempty' => ?_⟩
  have hstart : Keeps (Back s.focusedComponent) s := by
    refine ⟨⟨hkeeps.numbered, hkeeps.known, fun e he => ?_, fun overlay b t _ ho => ?_⟩, .inl rfl⟩
    · rw [hempty] at he
      cases he
    · rw [hempty] at ho
      obtain ⟨o, ho, -⟩ := ho
      cases ho
  have hend : Keeps (Back s.focusedComponent) s' := by
    refine hrun.invariant (p := Keeps (Back s.focusedComponent)) ?_ fun _ _ _ => keeps_back_step
    rintro _ rfl
    exact hstart
  rcases hend.focused with heq | ⟨c, -, hover⟩
  · exact heq
  · obtain ⟨e, he, -⟩ := Tui.isOverlay_iff.mp hover
    rw [hempty'] at he
    cases he

/-- A fresh interface with a focused editor and another mounted component. -/
def start : Tui Nat := { focusedComponent := some 0, mounted := [0, 1] }

/-- A dialog, a passive overlay that is focused, loses the focus to the base and
is released, and a second dialog that is hidden for a while. -/
def sampleRun : List (Label Nat) :=
  [.showOverlay 10 false true, .showOverlay 11 true true, .focus 1, .key fun _ => true,
    .setFocus 1, .key fun _ => true, .unfocus 1 (some (some 0)), .hide 0,
    .showOverlay 12 false true, .setHidden 2 true, .key fun _ => true, .setHidden 2 false,
    .answer 2 false, .key fun _ => true, .answer 2 true, .hideOverlay]

theorem focus_proper_sample : Proper (Run.afterAll step start sampleRun) :=
  focus_proper (.of_check (.init ⟨rfl, rfl⟩) (by decide +kernel))

theorem Tui.Nearest.not_hidden (h : s.Nearest p (some c)) : s.isHiddenOverlay c = false := by
  generalize hq : some c = q at h
  induction h with
  | nothing => cases hq
  | here hhidden =>
    cases hq
    exact hhidden
  | further _ _ _ ih => exact ih hq

/-- Two dialogs that are both not visible any more when a key arrives. -/
def dimmedRun : List (Label Nat) :=
  [.showOverlay 10 false true, .showOverlay 11 false true, .answer 0 false, .answer 1 false]

/-- A hidden dialog below the one that is closed. -/
def nestedRun : List (Label Nat) :=
  [.showOverlay 10 false true, .showOverlay 11 false true, .setHidden 0 true]

/-- A closed dialog that its handle hides and shows. -/
def revivedRun : List (Label Nat) :=
  [.showOverlay 10 false true, .hide 0, .setHidden 0 true, .setHidden 0 false]

/-- **The focus goes astray** in three ways: a key goes to an overlay that is not
visible, a closed dialog leaves the focus to a hidden one, and the focus ends on
a removed overlay with none left. -/
theorem focus_improper :
    (∃ s : Tui Nat, Run Fresh step (fun _ _ => True) s ∧
      ∃ c, receiver s (fun _ => true) = some c ∧ s.isDead c = true) ∧
    (∃ s : Tui Nat, Run Fresh step (fun _ _ => True) s ∧
      ∃ e s', leaver s (.hide 1) = some e ∧ e.captures = true ∧
        s.focusedComponent = some e.component ∧ step s (.hide 1) = some s' ∧ ¬ s'.LeftBy e) ∧
    ∃ s s' : Tui Nat, Run Fresh step (fun _ _ => True) s ∧
      Run (· = s) step (fun _ label => label.refocuses = false) s' ∧
      s.overlayStack = [] ∧ s'.overlayStack = [] ∧ s'.focusedComponent ≠ s.focusedComponent := by
  refine ⟨⟨Run.afterAll step start dimmedRun, ?_, 10, ?_, ?_⟩,
    ⟨Run.afterAll step start nestedRun, ?_, ?_⟩,
    start, Run.afterAll step start revivedRun, .init ⟨rfl, rfl⟩, ?_, rfl, ?_, ?_⟩
  · exact .of_check (.init ⟨rfl, rfl⟩) (by decide +kernel)
  · decide +kernel
  · decide +kernel
  · exact .of_check (.init ⟨rfl, rfl⟩) (by decide +kernel)
  · refine ⟨_, _, rfl, rfl, rfl, rfl, ?_⟩
    rintro (⟨top, htop, hcaptures, -⟩ | ⟨-, hnearest⟩)
    · have hnone : ∀ o ∈ (Run.after step (Run.afterAll step start nestedRun)
          (.hide 1)).overlayStack, o.captures = false := by decide +kernel
      rw [hnone top htop] at hcaptures
      cases hcaptures
    · have hhidden := Tui.Nearest.not_hidden (c := 10) hnearest
      revert hhidden
      decide +kernel
  · exact .of_check (.init rfl) (by decide +kernel)
  · decide +kernel
  · decide +kernel

end ReflectivePi.Overlays
